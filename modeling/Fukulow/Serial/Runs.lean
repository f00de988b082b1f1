/-
Calls that run one at a time.

`Request.alone` is the run of one call with nobody around, `served` of several in turn.
What their guarantees say of commits in any company holds here with the state the call
began in, and the invariants of committed states are kept. `Reachable.alone` connects this
with the engine: a system with nothing in flight can take exactly this step.
-/
import Fukulow.References
import Fukulow.Txn.Solo

set_option autoImplicit false

namespace Fukulow

/-- A call that runs alone on `db`: its reply, and the state it leaves. -/
def Request.alone (q : Request) (db : Database) : Except Reply Reply × Database :=
  q.body.exec Write.apply [] db

/-- The state after some calls, one at a time. -/
def served : List Request → Database → Database
  | [], db => db
  | q :: qs, db => served qs (q.alone db).2

@[simp] theorem served_append (qs qs' : List Request) (db : Database) :
    served (qs ++ qs') db = served qs' (served qs db) := by
  induction qs generalizing db with
  | nil => rfl
  | cons q qs ih => exact ih _

variable {q : Request} {db : Database}

/-- From the description of an operation to its call: an ending with a result leaves what was seen
last, one with an error leaves the state. -/
theorem alone_of_solo {ε α : Type} {p : Sql ε α} {g : Except ε α → Reply} {Q : α → Database → Prop}
    {F : ε → Prop} (hbody : q.body = p.answer g) (h : p.Solo Write.apply db Q F db) :
    (∃ a t, q.alone db = (.ok (g (.ok a)), t) ∧ Q a t)
      ∨ ∃ e, q.alone db = (.error (g (.error e)), db) ∧ F e := by
  have hanswer : q.body.Solo Write.apply db
      (fun reply t => ∃ a, reply = g (.ok a) ∧ Q a t)
      (fun reply => ∃ e, reply = g (.error e) ∧ F e) db := by
    rw [hbody, Txn.Prog.solo_answer]
    exact Txn.Prog.solo_mono h (fun a t ha => ⟨a, rfl, ha⟩) fun e he => ⟨e, rfl, he⟩
  have hexec := hanswer.exec
  rw [Request.alone]
  split at hexec
  · rename_i heq
    obtain ⟨a, rfl, ha⟩ := hexec
    exact .inl ⟨a, _, heq, ha⟩
  · rename_i heq
    obtain ⟨⟨e, rfl, he⟩, rfl⟩ := hexec
    exact .inr ⟨e, heq, he⟩

/-- **A call alone commits what its guarantee says, or changes nothing.** The walks were made for
any company; here the company is nobody, and the state at the end is the one at the beginning with
the call's own writes. -/
theorem alone_cases (guarded : Bool) (hc : Consistent db) (q : Request) :
    (∃ ws reply, q.alone db = (.ok reply, view ws db) ∧ CommitSpec guarded q ws reply db)
      ∨ ∃ reply, q.alone db = (.error reply, db) := by
  have hv : (allRules guarded).valid ⟨db, []⟩ := hc
  have hsolo := Txn.Rules.wp_solo (R := allRules guarded) (w := ⟨db, []⟩) hv
    (bodies (L := []) q rfl fun _ v _ hv => Consistent.toLeavable hv)
  have hexec := hsolo.exec
  rw [Request.alone]
  split at hexec
  · rename_i reply t heq
    obtain ⟨L, ws, hcommit, rfl⟩ := hexec
    exact .inl ⟨ws, reply, heq, (hcommit _ .refl hv).2.1⟩
  · rename_i reply t heq
    obtain ⟨-, rfl⟩ := hexec
    exact .inr ⟨reply, heq⟩

/-- What commits keep, a call that runs alone keeps. -/
theorem alone_keeps {P : Database → Prop}
    (hP : ∀ ws reply, CommitSpec true q ws reply db → P (view ws db)) (hc : Consistent db)
    (h : P db) : P (q.alone db).2 := by
  obtain ⟨ws, reply, heq, hcommit⟩ | ⟨reply, heq⟩ := alone_cases true hc q
  · rw [heq]
    exact hP ws reply hcommit
  · rw [heq]
    exact h

theorem alone_consistent (hc : Consistent db) : Consistent (q.alone db).2 :=
  alone_keeps (fun _ _ h => h.consistent hc) hc hc

theorem alone_references (hc : Consistent db) (href : References db) :
    References (q.alone db).2 :=
  alone_keeps (fun _ _ h => h.references href) hc href

/-- And so do several in turn. -/
theorem served_consistent {qs : List Request} (hc : Consistent db) : Consistent (served qs db) := by
  induction qs generalizing db with
  | nil => exact hc
  | cons q qs ih => exact ih (alone_consistent hc)

theorem served_references {qs : List Request} (hc : Consistent db) (href : References db) :
    References (served qs db) := by
  induction qs generalizing db with
  | nil => exact href
  | cons q qs ih => exact ih (alone_consistent hc) (alone_references hc href)

/-- A run that ends is a step of the engine, for a transaction id that is new. The engine asks for
new ids because a row remembers the transaction that wrote it last. -/
theorem quiet_alone {s : System} (hs : Txn.Engine.Quiet s)
    (hnew : ∀ e ∈ s.world.history, e.call.tx.xid ≠ q.tx.xid) :
    ∃ s', (engine anyCall).Steps s s' ∧ Txn.Engine.Quiet s'
      ∧ s'.world.store = (q.alone s.world.store).2
      ∧ s'.world.history.map (fun e => e.call) = s.world.history.map (fun e => e.call) ++ [q] := by
  have hmay : (engine anyCall).mayStart s.world q = true := by
    simpa [engine, List.all_eq_true] using hnew
  obtain ⟨L, o, s', hsteps, hquiet, hworld, hend⟩ := hs.serves hmay
  refine ⟨s', hsteps, hquiet, ?_, by simp [hworld, Txn.Engine.finish]⟩
  rw [hworld, Request.alone, Txn.Prog.exec_eq]
  simp only [Txn.Prog.overlay_nil]
  change (engine anyCall).Ending s.world.store o
    (q.body.eval Write.apply s.world.store s.world.store) at hend
  cases heval : q.body.eval Write.apply s.world.store s.world.store with
  | ok r =>
      rw [heval] at hend
      obtain ⟨ws, rfl, hview⟩ := hend
      exact hview.symm
  | error reply =>
      rw [heval] at hend
      cases hend
      rfl

/-- **What calls one at a time lead to is reachable**, when no two have one transaction id. So what
holds of reachable states holds after any sequence of calls. -/
theorem reachable_served {qs : List Request} (hnodup : (qs.map fun q => q.tx.xid).Nodup) :
    ∃ s, (engine anyCall).Reachable World.empty s ∧ Txn.Engine.Quiet s
      ∧ s.world.store = served qs Database.empty
      ∧ s.world.history.map (fun e => e.call) = qs := by
  -- Induction from the last call: the calls before it have brought the system here.
  induction qs using List.reverseRecOn with
  | nil => exact ⟨Txn.Engine.idle World.empty, .refl, fun _ => rfl, rfl, rfl⟩
  | append_singleton qs q ih =>
      rw [List.map_append, List.nodup_append] at hnodup
      obtain ⟨s, hreach, hquiet, hstore, hhistory⟩ := ih hnodup.1
      have hnew : ∀ e ∈ s.world.history, e.call.tx.xid ≠ q.tx.xid := by
        intro e he
        have hmem : e.call ∈ qs := hhistory ▸ List.mem_map_of_mem he
        exact hnodup.2.2 _ (List.mem_map_of_mem hmem) _ List.mem_cons_self
      obtain ⟨s', hsteps, hquiet', hstore', hhistory'⟩ := quiet_alone hquiet hnew
      refine ⟨s', hreach.trans hsteps, hquiet', ?_, hhistory'.trans (by rw [hhistory])⟩
      rw [hstore', hstore, served_append]
      rfl

end Fukulow
