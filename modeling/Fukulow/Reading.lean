/-
A reader who pages through a channel.

The reader passes on the number of the last message of each page and stops at an empty
page. Between its calls anything may be posted. Forwards it reads every message there is
when it stops, backwards every message there was when it began, each once and in order;
the library of cursors says so of any such reader, and what is left is that a page is what
the library calls one, that a channel only grows at its end, and that runs show a reader
nothing else.
-/
import Fukulow.Numbering
import Fukulow.Serial.Messages
import Fukulow.Serial.Runs

set_option autoImplicit false

namespace Fukulow

open Paging (Ascending)

/-! ## Readers -/

/-- What one call of a reader meets, and its limit. -/
structure PageCall where
  db : Database
  tx : Transaction
  limit : ℕ

section Readers

variable (a : ActorId) (o : OrganizationId) (c : ChannelId)

/-- The pages that `messages_after` returns from `cursor` on, up to the first empty one; `none`
when a call fails. -/
def pages_after : List PageCall → ChannelSeq → Option (List (List Message))
  | [], _ => some []
  | x :: calls, cursor =>
    match ((Request.mk (.messages_after a o c cursor x.limit) x.tx).alone x.db).1 with
    | .ok (.messages_after (.ok page)) =>
      match page.getLast? with
      | none => some [[]]
      | some m => (pages_after calls m.channel_seq).map (page :: ·)
    | _ => none

/-- The same backwards, by `messages_before`. -/
def pages_before : List PageCall → Option ChannelSeq → Option (List (List Message))
  | [], _ => some []
  | x :: calls, cursor =>
    match ((Request.mk (.messages_before a o c cursor x.limit) x.tx).alone x.db).1 with
    | .ok (.messages_before (.ok page)) =>
      match page.getLast? with
      | none => some [[]]
      | some m => (pages_before calls (some m.channel_seq)).map (page :: ·)
    | _ => none

/-- The channel holds the messages `1 .. n` of its organization, where the reader is active. -/
structure Readable (db : Database) (n : ℕ) : Prop extends Holds db o c n where
  active : db.active o a = true

end Readers

/-- The messages of the channel are still there. -/
def Grown (c : ChannelId) (db db' : Database) : Prop :=
  ∀ id m, db.message id = some m → m.channel_id = c → db'.message id = some m

variable {a : ActorId} {o : OrganizationId} {c : ChannelId} {db db' : Database} {n n' : ℕ}

/-! ## One page -/

/-- A page forwards is what comes after the cursor, cut to the limit, and the call changes nothing.
-/
theorem messages_after_alone (h : Readable a o c db n) (tx : Transaction) (after : ChannelSeq)
    (limit : ℕ) : (Request.mk (.messages_after a o c after limit) tx).alone db
      = (.ok (.messages_after (.ok ((Paging.rest Message.seq (WithBot.some after.get)
        (channel_content db c)).take (page_limit limit)))), db) := by
  obtain ⟨page, t, heq, rfl, rfl⟩ | ⟨e, -, he⟩ := alone_of_solo
    (q := ⟨.messages_after a o c after limit, tx⟩) rfl
    ((solo_messages_after (Q := fun page t => page = _ ∧ t = db) (F := fun _ => False)
      h.toHolds h.active).mpr ⟨rfl, rfl⟩)
  · exact heq
  · exact he.elim

/-- A page backwards is what comes before the cursor, newest first, cut to the limit. -/
theorem messages_before_alone (h : Readable a o c db n) (tx : Transaction)
    (before : Option ChannelSeq) (limit : ℕ) :
    (Request.mk (.messages_before a o c before limit) tx).alone db
      = (.ok (.messages_before (.ok ((Paging.rest Message.back (before_cursor before)
        (channel_content db c).reverse).take (page_limit limit)))), db) := by
  obtain ⟨page, t, heq, rfl, rfl⟩ | ⟨e, -, he⟩ := alone_of_solo
    (q := ⟨.messages_before a o c before limit, tx⟩) rfl
    ((solo_messages_before (Q := fun page t => page = _ ∧ t = db) (F := fun _ => False)
      h.toHolds h.active).mpr ⟨rfl, rfl⟩)
  · exact heq
  · exact he.elim

/-- No limit makes a page empty: the operation raises a limit of nothing to one. -/
theorem page_limit_pos (limit : ℕ) : 0 < page_limit limit := by
  rw [page_limit]
  omega

/-! ## The readers are cursors -/

/-- Forwards the reader is a cursor over the messages as they are numbered, by induction on its
calls. -/
theorem pages_after_eq {calls : List PageCall} {cursor : ChannelSeq}
    (h : ∀ x ∈ calls, ∃ n, Readable a o c x.db n) :
    pages_after a o c calls cursor = some (Paging.read Message.seq
      (calls.map fun x => (channel_content x.db c, page_limit x.limit)) (WithBot.some cursor.get)) := by
  induction calls generalizing cursor with
  | nil => rfl
  | cons x calls ih =>
      rw [List.forall_mem_cons] at h
      obtain ⟨⟨n, hread⟩, hrest⟩ := h
      simp only [pages_after, messages_after_alone hread, List.map_cons, Paging.read]
      split
      · rename_i hlast
        rw [hlast]
      · rename_i hlast
        rw [hlast, ih hrest]
        rfl

/-- Backwards it is a cursor over the reversed messages, where an absent cursor is beyond the end.
-/
theorem pages_before_eq {calls : List PageCall} {cursor : Option ChannelSeq}
    (h : ∀ x ∈ calls, ∃ n, Readable a o c x.db n) :
    pages_before a o c calls cursor = some (Paging.read Message.back
      (calls.map fun x => ((channel_content x.db c).reverse, page_limit x.limit))
      (before_cursor cursor)) := by
  induction calls generalizing cursor with
  | nil => rfl
  | cons x calls ih =>
      rw [List.forall_mem_cons] at h
      obtain ⟨⟨n, hread⟩, hrest⟩ := h
      simp only [pages_before, messages_before_alone hread, List.map_cons, Paging.read]
      split
      · rename_i hlast
        rw [hlast]
      · rename_i hlast
        rw [hlast, ih hrest]
        rfl

/-! ## Growth -/

/-- A channel grows at its end: what it held is still there under the same numbers, and these are
the first ones. -/
theorem Holds.grown (h : Holds db o c n) (h' : Holds db' o c n') (hgrown : Grown c db db') :
    channel_content db c <+: channel_content db' c := by
  have hsame : (channel_content db' c).filter (fun m => m.seq ≤ n) = channel_content db c := by
    refine Paging.Ascending.eq_of_mem Message.seq (h'.ascending.filter _) h.ascending fun m => ?_
    rw [List.mem_filter, mem_channel_content, mem_channel_content, decide_eq_true_eq]
    constructor
    · rintro ⟨⟨id', r', hr', hc', rfl⟩, hle⟩
      -- The number was in use before, by a message that is still there.
      obtain ⟨id, r, hr, hc, hseq⟩ := h.used r'.channel_seq (h'.range id' r' hr' hc').2.1 hle
      have hstays := hgrown id r hr hc
      cases h'.once id id' r r' hstays hr' hc hc' hseq.symm
      cases hstays.symm.trans hr'
      exact ⟨id', r', hr, hc, rfl⟩
    · rintro ⟨id, r, hr, hc, rfl⟩
      exact ⟨⟨id, r, hgrown id r hr hc, hc, rfl⟩, (h.range id r hr hc).2.2⟩
  refine ⟨Paging.rest Message.seq (WithBot.some n) (channel_content db' c), ?_⟩
  rw [← hsame]
  exact (h'.ascending.split n).symm

/-! ## How much there is to read -/

/-- After the cursor there is what the numbers leave, since no number is missing. -/
theorem Holds.length_after (h : Holds db o c n) (cursor : ℕ) :
    (Paging.rest Message.seq (WithBot.some cursor) (channel_content db c)).length = n - cursor := by
  have hlength := h.length_filter (p := fun i => cursor < i) (cursor + 1) (n - cursor)
    fun i => by simp only [decide_eq_true_eq]; omega
  rw [← hlength, Paging.rest]
  exact congrArg _ (List.filter_congr fun m _ => by simp only [WithBot.coe_lt_coe])

/-- How many messages come before the cursor. -/
def count_before (n : ℕ) : Option ChannelSeq → ℕ
  | none => n
  | some cursor => min n (cursor.get - 1)

/-- Before the cursor there are the numbers below it. -/
theorem Holds.length_before (h : Holds db o c n) (before : Option ChannelSeq) :
    (Paging.rest Message.back (before_cursor before) (channel_content db c).reverse).length
      = count_before n before := by
  have hlength := h.length_filter
      (p := fun i => before.elim true fun cursor => i < cursor.get) 1 (count_before n before)
      fun i => by
    cases before with
    | none => simp only [count_before, Option.elim_none, and_true]; omega
    | some cursor => simp only [count_before, Option.elim_some, decide_eq_true_eq]; omega
  rw [← hlength, Paging.rest, List.filter_reverse, List.length_reverse]
  refine congrArg _ (List.filter_congr fun m _ => ?_)
  cases before with
  | none => simp [before_cursor, WithBot.bot_lt_coe]
  | some cursor => simp [before_cursor, Message.back]

/-! ## Whole readings -/

/-- Calls of a reader that meet the channel with at most `bound` messages and see it grow. -/
structure Calls (a : ActorId) (o : OrganizationId) (c : ChannelId) (bound : ℕ)
    (calls : List PageCall) : Prop where
  readable : ∀ x ∈ calls, ∃ n, n ≤ bound ∧ Readable a o c x.db n
  grown : calls.Pairwise fun x y => Grown c x.db y.db
  enough : bound < calls.length

section Readings

variable {bound : ℕ} {calls : List PageCall}

/-- Forwards, from any cursor: what comes after it when the reader stops. What was posted meanwhile
has come behind the cursor and is read as well. -/
theorem read_forward (h : Calls a o c bound calls) (cursor : ChannelSeq) :
    ∃ pages x, pages_after a o c calls cursor = some (pages ++ [[]]) ∧ (∀ page ∈ pages, page ≠ [])
      ∧ calls[pages.length]? = some x
      ∧ pages.flatten
        = Paging.rest Message.seq (WithBot.some cursor.get) (channel_content x.db c) := by
  have hread : ∀ x ∈ calls, ∃ n, Readable a o c x.db n := fun x hx =>
    (h.readable x hx).imp fun _ hn => hn.2
  have hgrow : calls.Pairwise fun x y =>
      Paging.rest Message.seq (WithBot.some cursor.get) (channel_content x.db c)
      <+: Paging.rest Message.seq (WithBot.some cursor.get) (channel_content y.db c) := by
    refine List.Pairwise.imp_of_mem ?_ h.grown
    intro x y hx hy hxy
    obtain ⟨n, hx⟩ := hread x hx
    obtain ⟨m, hy⟩ := hread y hy
    exact (hx.toHolds.grown hy.toHolds hxy).filter _
  -- Each call meets a source in order, with a limit, and with no more to read than the bound.
  have hall : ∀ call ∈ calls.map (fun x => (channel_content x.db c, page_limit x.limit)),
      Ascending Message.seq call.1 ∧ 0 < call.2
        ∧ (Paging.rest Message.seq (WithBot.some cursor.get) call.1).length ≤ bound := by
    intro call hcall
    obtain ⟨x, hx, rfl⟩ := List.mem_map.mp hcall
    obtain ⟨n, hn, hx⟩ := h.readable x hx
    refine ⟨hx.toHolds.ascending, page_limit_pos _, ?_⟩
    rw [hx.toHolds.length_after]
    exact (Nat.sub_le _ _).trans hn
  obtain ⟨pages, call, hpages, hfull, hcall, hflat⟩ :=
    Paging.read_all (k := WithBot.some cursor.get) bound
    (fun call hcall => (hall call hcall).1) (fun call hcall => (hall call hcall).2.1)
    (List.pairwise_map.mpr hgrow) (fun call hcall => (hall call hcall).2.2)
    (by rw [List.length_map]; exact h.enough)
  rw [List.getElem?_map, Option.map_eq_some_iff] at hcall
  obtain ⟨x, hx, rfl⟩ := hcall
  exact ⟨pages, x, by rw [pages_after_eq hread, hpages], hfull, hx, hflat⟩

/-- Backwards, from any cursor: what comes before it when the reader begins. What is posted
meanwhile is newer than all cursors, so no page has it. -/
theorem read_backward {x : PageCall} (h : Calls a o c bound (x :: calls))
    (cursor : Option ChannelSeq) :
    ∃ pages, pages_before a o c (x :: calls) cursor = some (pages ++ [[]])
      ∧ (∀ page ∈ pages, page ≠ [])
      ∧ pages.flatten = Paging.rest Message.back (before_cursor cursor)
        (channel_content x.db c).reverse := by
  have hread : ∀ y ∈ x :: calls, ∃ n, Readable a o c y.db n := fun y hy =>
    (h.readable y hy).imp fun _ hn => hn.2
  obtain ⟨n, hn, hx⟩ := h.readable x List.mem_cons_self
  have hall : ∀ call ∈ calls.map (fun y => ((channel_content y.db c).reverse, page_limit y.limit)),
      Ascending Message.back call.1 ∧ 0 < call.2 ∧ (channel_content x.db c).reverse <:+ call.1 := by
    intro call hcall
    obtain ⟨y, hy, rfl⟩ := List.mem_map.mp hcall
    obtain ⟨m, hm⟩ := hread y (List.mem_cons_of_mem _ hy)
    exact ⟨hm.toHolds.descending, page_limit_pos _, List.reverse_suffix.mpr
      (hx.toHolds.grown hm.toHolds ((List.pairwise_cons.mp h.grown).1 y hy))⟩
  have hbound : (Paging.rest Message.back (before_cursor cursor)
      (channel_content x.db c).reverse).length ≤ bound := by
    rw [hx.toHolds.length_before]
    refine le_trans ?_ hn
    cases cursor with
    | none => exact le_rfl
    | some cursor => exact min_le_left _ _
  obtain ⟨pages, hpages, hfull, hflat⟩ := Paging.read_back (page_limit_pos x.limit)
    hx.toHolds.descending (fun call hcall => (hall call hcall).1)
    (fun call hcall => (hall call hcall).2.1) (fun call hcall => (hall call hcall).2.2) hbound
    (by rw [List.length_map]; simpa using h.enough)
  exact ⟨pages, by rw [pages_before_eq hread, List.map_cons, hpages], hfull, hflat⟩

/-- What comes before a message, newest first: the smaller numbers, reversed. -/
theorem rest_back (m : Message) (xs : List Message) :
    Paging.rest Message.back (before_cursor (some m.channel_seq)) xs.reverse
      = (xs.filter fun x => x.seq < m.seq).reverse := by
  rw [Paging.rest, List.filter_reverse]
  refine congrArg _ (List.filter_congr fun x _ => ?_)
  simp [before_cursor, Message.back]
  rfl

/-- The two readings from a message, and the message between them, are the whole channel as it is
in the end. -/
theorem Holds.around (h : Holds db o c n) (h' : Holds db' o c n') (hgrown : Grown c db db')
    {m : Message} (hm : m ∈ channel_content db c) :
    channel_content db' c
      = (Paging.rest Message.back (before_cursor (some m.channel_seq))
          (channel_content db c).reverse).reverse
        ++ m :: Paging.rest Message.seq (WithBot.some m.seq) (channel_content db' c) := by
  obtain ⟨newer, hnewer⟩ := h.grown h' hgrown
  have hcross := (List.pairwise_append.mp (hnewer ▸ h'.ascending)).2.2
  have hnone : newer.filter (fun x => x.seq < m.seq) = [] :=
    List.filter_eq_nil_iff.mpr fun x hx => by simpa using (hcross m hm x hx).le
  have holder : (channel_content db' c).filter (fun x => x.seq < m.seq)
      = (channel_content db c).filter fun x => x.seq < m.seq := by
    rw [← hnewer, List.filter_append, hnone, List.append_nil]
  have hmem : m ∈ channel_content db' c := hnewer ▸ List.mem_append_left _ hm
  rw [rest_back, List.reverse_reverse, ← holder]
  exact h'.ascending.split_at hmem

end Readings

/-! ## The readers of a run -/

/-- In every committed state a channel of the organization is there to be read. -/
theorem reachable_readable {s : System} (h : (engine anyCall).Reachable World.empty s)
    {r : ChannelRow} (hr : s.world.store.channel c = some r)
    (ha : s.world.store.active r.organization_id a = true) :
    Readable a r.organization_id c s.world.store r.next_message_seq := by
  have hn := reachable_numbered h
  constructor
  · refine ⟨⟨r, hr, rfl⟩, ?_, fun i => hn.used c r i hr, ?_⟩
    · rintro id m hm rfl
      obtain ⟨x, hx, hpos, hle⟩ := hn.range id m hm
      obtain ⟨y, hy, horg⟩ := (reachable_references h).message id m hm
      cases hr.symm.trans hx
      cases hr.symm.trans hy
      exact ⟨horg.symm, hpos, hle⟩
    · rintro id id' m m' hm hm' hc hc' hseq
      exact hn.once id id' m m' hm hm' (hc'.trans hc.symm) hseq
  · exact ha

/-- A run leaves messages where they are, since nothing updates or deletes them. -/
theorem reachable_grown {s s' : System} (h : (engine anyCall).Reachable World.empty s)
    (hs : (engine anyCall).Steps s s') : Grown c s.world.store s'.world.store :=
  fun _ _ hm _ => later_message_stays (reachable_later_steps h hs) hm

/-- **Readers of a run.** Calls of an active member at states that a run comes through are a
reader's calls. -/
theorem Calls.of_run {calls : List PageCall} {bound : ℕ} {systems : List System}
    (hcalls : calls.map (fun x => x.db) = systems.map fun s => s.world.store)
    (hreach : ∀ s ∈ systems, (engine anyCall).Reachable World.empty s)
    (hsteps : systems.Pairwise (engine anyCall).Steps)
    (hactive : ∀ s ∈ systems, s.world.store.active o a = true)
    (hchannel : ∀ s ∈ systems, ∃ r, s.world.store.channel c = some r ∧ r.organization_id = o
      ∧ r.next_message_seq ≤ bound) (henough : bound < calls.length) :
    Calls a o c bound calls where
  readable x hx := by
    have hmem : x.db ∈ systems.map fun s => s.world.store := hcalls ▸ List.mem_map_of_mem hx
    obtain ⟨s, hs, hdb⟩ := List.mem_map.mp hmem
    obtain ⟨r, hr, rfl, hle⟩ := hchannel s hs
    exact ⟨_, hle, hdb ▸ reachable_readable (hreach s hs) hr (hactive s hs)⟩
  grown := by
    have hpairs : (systems.map fun s => s.world.store).Pairwise (Grown c) :=
      List.pairwise_map.mpr (hsteps.imp_of_mem fun hs _ => reachable_grown (hreach _ hs))
    rw [← hcalls] at hpairs
    exact List.pairwise_map.mp hpairs
  enough := henough

/-! ## Cursor paging -/

/-- The pages that a reader was given, with the empty one at the end. -/
def Turned (result : Option (List (List Message))) (pages : List (List Message)) : Prop :=
  result = some (pages ++ [[]]) ∧ ∀ page ∈ pages, page ≠ []

/-- A page of `count` messages, or of as many as the limit admits. -/
def Page (count limit : ℕ) (page : List Message) : Prop :=
  page.length = min (max 1 (min limit 200)) count

/-- What the pages of a reader are, whose calls these are. -/
structure PagedExactly (a : ActorId) (o : OrganizationId) (c : ChannelId) (x : PageCall)
    (calls : List PageCall) : Prop where
  /-- The content of a channel is its stored messages in the order `1 .. n`. Every page of it
  is as long as what remains after its cursor and the limit allow. -/
  pages : ∀ y ∈ x :: calls, ∃ n, (channel_content y.db c).map Message.seq = List.range' 1 n
    ∧ (∀ m, m ∈ channel_content y.db c ↔ y.db.stores c m)
    ∧ (∀ after, ∃ page, (Request.mk (.messages_after a o c after y.limit) y.tx).alone y.db
      = (.ok (.messages_after (.ok page)), y.db) ∧ Page (n - after.get) y.limit page)
    ∧ ∀ before, ∃ page, (Request.mk (.messages_before a o c before y.limit) y.tx).alone y.db
      = (.ok (.messages_before (.ok page)), y.db) ∧ Page (count_before n before) y.limit page
  /-- Forwards from the beginning: what the channel holds at the last call. -/
  forward : ∃ pages y, Turned (pages_after a o c (x :: calls) .BEGINNING) pages
    ∧ (x :: calls)[pages.length]? = some y ∧ pages.flatten = channel_content y.db c
  /-- Backwards from the end: what the channel holds at the first call. -/
  backward : ∃ pages, Turned (pages_before a o c (x :: calls) none) pages
    ∧ pages.flatten = (channel_content x.db c).reverse
  /-- What is before a message, the message, and what is after it make up the channel. -/
  around : ∀ m ∈ channel_content x.db c, ∃ older newer y,
    Turned (pages_before a o c (x :: calls) (some m.channel_seq)) older
    ∧ Turned (pages_after a o c (x :: calls) m.channel_seq) newer
    ∧ (x :: calls)[newer.length]? = some y
    ∧ channel_content y.db c = older.flatten.reverse ++ m :: newer.flatten

/-- The content is in the order of its numbers, from one on and without a gap. -/
theorem Holds.in_order (h : Holds db o c n) :
    (channel_content db c).map Message.seq = List.range' 1 n := by
  refine Ascending.eq_of_mem (id : ℕ → ℕ) (List.pairwise_map.mpr h.ascending)
    List.pairwise_lt_range' fun i => ?_
  rw [mem_seqs h, List.mem_range'_1]
  omega

/-- **Cursor paging loses and repeats nothing.** Each page is exact for the state it met; the
reading forwards is all there is at its end, the one backwards all there was at its beginning, and
both from one message join at it. -/
theorem cursor_paging {x : PageCall} {calls : List PageCall} {bound : ℕ}
    (h : Calls a o c bound (x :: calls)) : PagedExactly a o c x calls where
  pages y hy := by
    obtain ⟨n, -, hread⟩ := h.readable y hy
    refine ⟨n, hread.toHolds.in_order, fun m => mem_channel_content, fun after => ?_,
      fun before => ?_⟩
    · refine ⟨_, messages_after_alone hread y.tx after y.limit, ?_⟩
      rw [Page, List.length_take, hread.toHolds.length_after, page_limit]
    · refine ⟨_, messages_before_alone hread y.tx before y.limit, ?_⟩
      rw [Page, List.length_take, hread.toHolds.length_before, page_limit]
  forward := by
    obtain ⟨pages, y, hpages, hfull, hy, hflat⟩ := read_forward h .BEGINNING
    refine ⟨pages, y, ⟨hpages, hfull⟩, hy, hflat.trans ?_⟩
    obtain ⟨n, -, hread⟩ := h.readable y (List.mem_of_getElem? hy)
    -- Every number is after the beginning.
    refine List.filter_eq_self.mpr fun m hm => ?_
    have hpos := ((mem_seqs hread.toHolds).mp (List.mem_map_of_mem hm)).1
    simpa [ChannelSeq.BEGINNING] using Nat.lt_of_succ_le hpos
  backward := by
    obtain ⟨pages, hpages, hfull, hflat⟩ := read_backward h none
    exact ⟨pages, ⟨hpages, hfull⟩, hflat.trans Paging.rest_bot⟩
  around m hm := by
    obtain ⟨older, holder, hfull, hflat⟩ := read_backward h (some m.channel_seq)
    obtain ⟨newer, y, hnewer, hfull', hy, hflat'⟩ := read_forward h m.channel_seq
    refine ⟨older, newer, y, ⟨holder, hfull⟩, ⟨hnewer, hfull'⟩, hy, ?_⟩
    obtain ⟨n, -, hx⟩ := h.readable x List.mem_cons_self
    obtain ⟨n', -, hread⟩ := h.readable y (List.mem_of_getElem? hy)
    have hgrown : Grown c x.db y.db := by
      obtain rfl | hmem := List.mem_cons.mp (List.mem_of_getElem? hy)
      · exact fun _ _ hm _ => hm
      · exact (List.pairwise_cons.mp h.grown).1 y hmem
    rw [hflat, hflat']
    exact hx.toHolds.around hread.toHolds hgrown hm

/-- Between the first call and the others the second message of the conversation is sent. -/
theorem cursor_paging_conversation : PagedExactly ⟨1⟩ ⟨10⟩ ⟨40⟩
    ⟨served (conversation.take 6) Database.empty, ⟨0, 8⟩, 1⟩
    [⟨served conversation Database.empty, ⟨0, 9⟩, 0⟩,
      ⟨served conversation Database.empty, ⟨0, 9⟩, 500⟩] := by
  have hnodup : ((conversation.take 6).map fun q => q.tx.xid).Nodup := by decide
  obtain ⟨s, hs, hquiet, hstore, hhistory⟩ := reachable_served hnodup
  have hnew : ∀ q ∈ conversation.take 6, q.tx.xid ≠ 7 := by decide
  obtain ⟨s', hsteps, -, hstore', -⟩ := quiet_alone
    (q := ⟨.post_message ⟨10⟩ ⟨40⟩ ⟨1⟩ (sampleId 1) ['z'], ⟨0, 7⟩⟩) hquiet
    fun e he => hnew _ (hhistory ▸ List.mem_map_of_mem he)
  have hreach : (engine anyCall).Reachable World.empty s' := hs.trans hsteps
  have hrefl : (engine anyCall).Steps s' s' := .refl
  have hlast : s'.world.store = served conversation Database.empty := by
    rw [hstore', hstore]
    rfl
  have hchannel : ∀ db : Database, (db.active ⟨10⟩ ⟨1⟩ && (db.channel ⟨40⟩).any fun r =>
      r.organization_id = ⟨10⟩ && r.next_message_seq ≤ 2) = true → db.active ⟨10⟩ ⟨1⟩ = true
      ∧ ∃ r, db.channel ⟨40⟩ = some r ∧ r.organization_id = ⟨10⟩ ∧ r.next_message_seq ≤ 2 := by
    intro db h
    obtain ⟨hactive, hany⟩ := Bool.and_eq_true_iff.mp h
    obtain ⟨r, hr, hcheck⟩ := (Option.any_eq_true _ _).mp hany
    rw [Bool.and_eq_true, decide_eq_true_eq, decide_eq_true_eq] at hcheck
    exact ⟨hactive, r, hr, hcheck⟩
  have hfirst := hchannel (served (conversation.take 6) Database.empty) (by decide +kernel)
  have hsecond := hchannel (served conversation Database.empty) (by decide +kernel)
  rw [← hstore] at hfirst
  rw [← hlast] at hsecond
  have hpairs : [s, s', s'].Pairwise (engine anyCall).Steps := by simp [hsteps, hrefl]
  have hcalls : Calls ⟨1⟩ ⟨10⟩ ⟨40⟩ 2 [⟨served (conversation.take 6) Database.empty, ⟨0, 8⟩, 1⟩,
      ⟨served conversation Database.empty, ⟨0, 9⟩, 0⟩,
      ⟨served conversation Database.empty, ⟨0, 9⟩, 500⟩] := by
    refine Calls.of_run ?_ ?_ hpairs ?_ ?_ (by simp)
    · simp [hstore, hlast]
    · simp [hs, hreach]
    · simp [hfirst.1, hsecond.1]
    · simp [hfirst.2, hsecond.2]
  exact cursor_paging hcalls

end Fukulow
