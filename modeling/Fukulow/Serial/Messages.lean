/-
Paging in `operations/messages.rs`, run alone.

`channel_content` is the content of a channel in the order of its numbers. Alone, a page is
the part of it after the cursor, or of the reversed content, up to the limit.
-/
import Fukulow.Operations.Messages
import Fukulow.Guaranteed.Messages
import Fukulow.Paging.Cursor
import Fukulow.Serial.Rules

set_option autoImplicit false

namespace Fukulow

open Paging (Ascending)

variable {db₀ db : Database} {tx : Transaction} {a : ActorId} {o : OrganizationId} {c : ChannelId}
variable {n limit : ℕ}

/-! ## The content of a channel -/

/-- The messages of channel `c` of organization `o` are numbered `1 .. n`, each number once. -/
structure Holds (db : Database) (o : OrganizationId) (c : ChannelId) (n : ℕ) : Prop where
  channel : ∃ r, db.channel c = some r ∧ r.organization_id = o
  range : ∀ id m, db.message id = some m → m.channel_id = c →
    m.organization_id = o ∧ 1 ≤ m.channel_seq ∧ m.channel_seq ≤ n
  used : ∀ i, 1 ≤ i → i ≤ n → ∃ id m, db.message id = some m ∧ m.channel_id = c ∧ m.channel_seq = i
  once : ∀ id id' m m', db.message id = some m → db.message id' = some m' → m.channel_id = c →
    m'.channel_id = c → m'.channel_seq = m.channel_seq → id' = id

/-- The number of a message. -/
def Message.seq (m : Message) : ℕ := m.channel_seq.get

/-- Is `m` a stored message of the channel? -/
def Database.stores (db : Database) (c : ChannelId) (m : Message) : Prop :=
  ∃ id r, db.message id = some r ∧ r.channel_id = c ∧ m = r.message id

/-- The rows of a channel's messages that `p` admits. -/
def message_rows (db : Database) (p : MessageRow → Bool) : List (MessageId × MessageRow) :=
  db.rows.select fun
    | .message id, r => if p r = true then some (id, r) else none
    | _, _ => none

theorem mem_message_rows {p : MessageRow → Bool} {x : MessageId × MessageRow} :
    x ∈ message_rows db p ↔ db.message x.1 = some x.2 ∧ p x.2 = true := by
  refine Txn.Store.mem_select.trans ⟨?_, ?_⟩
  · rintro ⟨k, r, hr, hread⟩
    cases k with
    | message id =>
        simp only [Option.ite_none_right_eq_some, Option.some.injEq] at hread
        obtain ⟨hp, rfl⟩ := hread
        exact ⟨hr, hp⟩
    | _ => cases hread
  · rintro ⟨hr, hp⟩
    exact ⟨.message x.1, x.2, hr, by simp [hp]⟩

/-- Two rows of one channel have different numbers, so an order by the number is one order. -/
theorem Holds.distinct {p : MessageRow → Bool} (h : Holds db o c n)
    (hp : ∀ r, p r = true → r.channel_id = c) :
    (message_rows db p).Pairwise fun x y => x.2.channel_seq ≠ y.2.channel_seq := by
  refine List.Pairwise.imp_of_mem (R := fun x y => x ≠ y) ?_ (Txn.Store.nodup_select _ _)
  rintro ⟨id, r⟩ ⟨id', r'⟩ hx hy hne heq
  obtain ⟨hr, hpr⟩ := mem_message_rows.mp hx
  obtain ⟨hr', hpr'⟩ := mem_message_rows.mp hy
  have hid : id' = id := h.once id id' r r' hr hr' (hp r hpr) (hp r' hpr') heq.symm
  subst hid
  cases hr.symm.trans hr'
  exact hne rfl

/-- The messages of a channel, by their numbers. -/
def channel_content (db : Database) (c : ChannelId) : List Message :=
  ((message_rows db fun r => r.channel_id = c).insertionSort fun x y =>
    x.2.channel_seq ≤ y.2.channel_seq).map fun x => x.2.message x.1

/-- The content of a channel is what is stored in it, no less and no more. -/
theorem mem_channel_content {m : Message} : m ∈ channel_content db c ↔ db.stores c m := by
  simp only [channel_content, List.mem_map, List.mem_insertionSort, mem_message_rows,
    decide_eq_true_eq, Prod.exists, Database.stores]
  constructor
  · rintro ⟨id, r, ⟨hr, hc⟩, rfl⟩
    exact ⟨id, r, hr, hc, rfl⟩
  · rintro ⟨id, r, hr, hc, rfl⟩
    exact ⟨id, r, ⟨hr, hc⟩, rfl⟩

/-- It is in the order of the numbers. -/
theorem Holds.ascending (h : Holds db o c n) : Ascending Message.seq (channel_content db c) :=
  List.pairwise_map.mpr
    (Paging.ascending_insertionSort _ (h.distinct fun _ hr => of_decide_eq_true hr))

/-- The numbers in use are `1 .. n`, without a gap. -/
theorem mem_seqs (h : Holds db o c n) {i : ℕ} :
    i ∈ (channel_content db c).map Message.seq ↔ 1 ≤ i ∧ i ≤ n := by
  rw [List.mem_map]
  constructor
  · rintro ⟨m, hm, rfl⟩
    obtain ⟨id, r, hr, hc, rfl⟩ := mem_channel_content.mp hm
    exact (h.range id r hr hc).2
  · rintro ⟨hpos, hle⟩
    obtain ⟨id, r, hr, hc, rfl⟩ := h.used i hpos hle
    exact ⟨r.message id, mem_channel_content.mpr ⟨id, r, hr, hc, rfl⟩, rfl⟩

/-- The numbers that satisfy `p` are the numbers of an interval, and as many. So the size of a page
can be computed from its cursor. -/
theorem Holds.length_filter (h : Holds db o c n) {p : ℕ → Bool} (first count : ℕ)
    (hp : ∀ i, 1 ≤ i ∧ i ≤ n ∧ p i = true ↔ first ≤ i ∧ i < first + count) :
    ((channel_content db c).filter fun m => p m.seq).length = count := by
  have hseqs : ((channel_content db c).filter fun m => p m.seq).map Message.seq
      = List.range' first count := by
    refine Ascending.eq_of_mem (id : ℕ → ℕ) ?_ List.pairwise_lt_range' fun i => ?_
    · exact List.pairwise_map.mpr (h.ascending.filter _)
    · have hmem := mem_seqs h (i := i)
      rw [List.mem_map] at hmem
      simp only [List.mem_map, List.mem_filter, List.mem_range'_1, ← hp]
      constructor
      · rintro ⟨m, ⟨hm, hpm⟩, rfl⟩
        obtain ⟨hpos, hle⟩ := hmem.mp ⟨m, hm, rfl⟩
        exact ⟨hpos, hle, hpm⟩
      · rintro ⟨hpos, hle, hpi⟩
        obtain ⟨m, hm, rfl⟩ := hmem.mpr ⟨hpos, hle⟩
        exact ⟨m, ⟨hm, hpi⟩, rfl⟩
  rw [← List.length_map (f := Message.seq), hseqs, List.length_range']

/-! ## Pages -/

/-- The rows of a page that a member reads: the policy hides none of them. -/
theorem channel_messages_eq (h : Holds db o c n) (ha : db.active o a = true) (wanted : ℕ → Bool) :
    channel_messages (begin tx (.actor a)) db o c wanted
      = message_rows db fun r => r.channel_id = c && wanted r.channel_seq := by
  refine Txn.Store.select_congr fun k r hr => ?_
  cases k with
  | message id =>
      by_cases hc : r.channel_id = c
      · obtain ⟨rfl, -⟩ := h.range id r hr hc
        have hseen : messages_select (begin tx (.actor a)) db r = true := by
          rwa [messages_select, active_organizations_actor rfl]
        simp [hc, hseen]
      · simp [hc]
  | _ => rfl

/-- Stored rows convert, since a stored number is positive; the conversion of the source could fail
for others. -/
theorem try_messages_ok {rows : List (MessageId × MessageRow)}
    (hpos : ∀ x ∈ rows, 1 ≤ x.2.channel_seq) :
    try_messages rows = .ok (rows.map fun x => x.2.message x.1) := by
  induction rows with
  | nil => rfl
  | cons x rows ih =>
      rw [List.forall_mem_cons] at hpos
      have hx : Message.try_from x.1 x.2 = .ok (x.2.message x.1) := by
        have hseq : (1 : ℤ) ≤ x.2.channel_seq := by exact_mod_cast hpos.1
        simp [Message.try_from, ChannelSeq.new, hseq, MessageRow.message]
      rw [try_messages] at ih ⊢
      rw [List.mapM_cons, hx, ih hpos.2]
      rfl

/-- Is the channel there for a member of its organization? -/
theorem Holds.channel_exists (h : Holds db o c n) (ha : db.active o a = true) :
    ((db.channel c).any fun r => r.organization_id = o
      && channels_select (begin tx (.actor a)) db r) = true := by
  obtain ⟨r, hr, rfl⟩ := h.channel
  refine (Option.any_eq_true _ _).mpr ⟨r, hr, ?_⟩
  rw [channels_select, active_organizations_actor rfl, ha]
  simp

/-- The rows of a page, sorted by some key of their numbers, are what the content in that order has
after the cursor. The two directions of paging are the two keys. -/
theorem page_rows {κ : Type} [LinearOrder κ] {key : ℕ → κ} {k : WithBot κ} {wanted : ℕ → Bool}
    {source : List Message} (h : Holds db o c n) (ha : db.active o a = true)
    (hkey : Function.Injective key) (hsource : Ascending (fun m => key m.seq) source)
    (hmem : ∀ m, m ∈ source ↔ m ∈ channel_content db c)
    (hwanted : ∀ i, wanted i = true ↔ k < (key i : WithBot κ)) :
    ((channel_messages (begin tx (.actor a)) db o c wanted).insertionSort
        fun x y => key x.2.channel_seq ≤ key y.2.channel_seq).map (fun x => x.2.message x.1)
      = Paging.rest (fun m => key m.seq) k source := by
  rw [channel_messages_eq h ha]
  have hdistinct := h.distinct (p := fun r => r.channel_id = c && wanted r.channel_seq)
    fun r hr => of_decide_eq_true (Bool.and_eq_true_iff.mp hr).1
  have hsorted := Paging.ascending_insertionSort
    (fun x : MessageId × MessageRow => key x.2.channel_seq)
    (hdistinct.imp fun hne heq => hne (hkey heq))
  refine Ascending.eq_of_mem (fun m : Message => key m.seq)
    (List.pairwise_map.mpr hsorted) (hsource.rest k) fun m => ?_
  rw [Paging.mem_rest, hmem, mem_channel_content]
  simp only [List.mem_map, List.mem_insertionSort, mem_message_rows, Bool.and_eq_true,
    decide_eq_true_eq, Prod.exists, Database.stores, hwanted]
  constructor
  · rintro ⟨id, r, ⟨hr, hc, hlt⟩, rfl⟩
    exact ⟨⟨id, r, hr, hc, rfl⟩, hlt⟩
  · rintro ⟨⟨id, r, hr, hc, rfl⟩, hlt⟩
    exact ⟨id, r, ⟨hr, hc, hlt⟩, rfl⟩

theorem Holds.positive (h : Holds db o c n) (ha : db.active o a = true) {wanted : ℕ → Bool}
    {x : MessageId × MessageRow}
    (hx : x ∈ channel_messages (begin tx (.actor a)) db o c wanted) : 1 ≤ x.2.channel_seq := by
  rw [channel_messages_eq h ha] at hx
  obtain ⟨hr, hp⟩ := mem_message_rows.mp hx
  exact (h.range _ _ hr (of_decide_eq_true (Bool.and_eq_true_iff.mp hp).1)).2.1

/-- **`messages_after`, alone**, by a member: the next messages after the cursor, as many as the
limit allows. -/
theorem solo_messages_after {Q : List Message → Database → Prop} {F : MessagesAfterError → Prop}
    {after : ChannelSeq} (h : Holds db o c n) (ha : db.active o a = true) :
    (messages_after tx a o c after limit).Solo Write.apply db₀ Q F db ↔
      Q ((Paging.rest Message.seq (WithBot.some after.get) (channel_content db c)).take
        (page_limit limit)) db := by
  have hrows : ((channel_messages (begin tx (.actor a)) db o c fun i => after.get < i).insertionSort
        fun x y => x.2.channel_seq ≤ y.2.channel_seq).map (fun x => x.2.message x.1)
      = Paging.rest Message.seq (WithBot.some after.get) (channel_content db c) :=
    page_rows h ha Function.injective_id h.ascending (fun _ => Iff.rfl) fun i => by
      simp only [decide_eq_true_eq, WithBot.coe_lt_coe, id_eq]
  unfold messages_after channel_exists
  rw [Txn.Prog.solo_bind, solo_lift, solo_select, h.channel_exists ha]
  simp only [Bool.not_true, Bool.false_eq_true, if_false]
  rw [Txn.Prog.solo_bind, solo_lift, solo_select, try_messages_ok, List.map_take, hrows]
  · exact Iff.rfl
  · exact fun x hx => h.positive ha ((List.mem_insertionSort _).mp (List.mem_of_mem_take hx))

/-! ## Backwards -/

/-- Newest first is in order, by the dual of the numbers. -/
def Message.back (m : Message) : ℕᵒᵈ := OrderDual.toDual m.seq

/-- The cursor of `messages_before`. -/
def before_cursor (before : Option ChannelSeq) : WithBot ℕᵒᵈ :=
  before.elim ⊥ fun cursor => (OrderDual.toDual cursor.get : ℕᵒᵈ)

theorem Holds.descending (h : Holds db o c n) :
    Ascending Message.back (channel_content db c).reverse :=
  List.pairwise_reverse.mpr h.ascending

/-- **`messages_before`, alone**, by a member: the messages before the cursor, newest first.
Without a cursor it begins with the last. -/
theorem solo_messages_before {Q : List Message → Database → Prop} {F : MessagesBeforeError → Prop}
    {before : Option ChannelSeq} (h : Holds db o c n) (ha : db.active o a = true) :
    (messages_before tx a o c before limit).Solo Write.apply db₀ Q F db ↔
      Q ((Paging.rest Message.back (before_cursor before) (channel_content db c).reverse).take
        (page_limit limit)) db := by
  have hrows : ∀ wanted : ℕ → Bool,
      (∀ i, wanted i = true ↔ before_cursor before < ((OrderDual.toDual i : ℕᵒᵈ) : WithBot ℕᵒᵈ)) →
      ((channel_messages (begin tx (.actor a)) db o c wanted).insertionSort
        fun x y => y.2.channel_seq ≤ x.2.channel_seq).map (fun x => x.2.message x.1)
      = Paging.rest Message.back (before_cursor before) (channel_content db c).reverse :=
    fun wanted hwanted => page_rows h ha OrderDual.toDual.injective h.descending
      (fun _ => List.mem_reverse) hwanted
  unfold messages_before channel_exists
  rw [Txn.Prog.solo_bind, solo_lift, solo_select, h.channel_exists ha]
  simp only [Bool.not_true, Bool.false_eq_true, if_false]
  rw [Txn.Prog.solo_bind, solo_lift, solo_select, try_messages_ok, List.map_take, hrows]
  · exact Iff.rfl
  · intro i
    cases before with
    | none => simp [before_cursor, WithBot.bot_lt_coe]
    | some cursor => simp [before_cursor]
  · exact fun x hx => h.positive ha ((List.mem_insertionSort _).mp (List.mem_of_mem_take hx))

end Fukulow
