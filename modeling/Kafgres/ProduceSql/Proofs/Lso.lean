/-
The LSO never passes a batch of an open SQL transaction, and reaches the
log end once none is open.
-/
import Kafgres.Lib.Run
import Kafgres.ProduceSql.Lso
import Kafgres.Segment.Proofs.Reserve
import Mathlib.Data.Fintype.BigOperators

namespace Kafgres.ProduceSql

open Storage Segment List Backend

variable {n : ℕ} {j : Key}

-- ==== frames

theorem setBackend_self (s : System n) (b : Fin n) (x : Backend) :
    (s.setBackend b x).backend b = x := Function.update_self ..

theorem setBackend_of_ne (s : System n) {b c : Fin n} (h : c ≠ b)
    (x : Backend) : (s.setBackend b x).backend c = s.backend c :=
  Function.update_of_ne h ..

theorem setPart_self (s : System n) (k : Key) (p : Part) :
    (s.setPart k p).part k = p := Function.update_self ..

theorem setPart_of_ne (s : System n) {k : Key} (h : j ≠ k) (p : Part) :
    (s.setPart k p).part j = s.part j := Function.update_of_ne h ..

-- ==== sessions

/-- The releases a backend still has to run on `k`. -/
def Backend.owed (x : Backend) (k : Key) : List ℤ :=
  (x.txn.toList.flatMap Txn.callbacks).filterMap fun c =>
    if c.1 = k then some c.2 else none

/-- Partition and base of every batch the transaction appended. -/
def Txn.appended (t : Txn) : List (Key × ℤ) := t.batches.map fun x => (x.key, x.base)

/-- What no savepoint statement touches. -/
structure SameBooks (x y : Session) : Prop where
  xid : y.txn.xid = x.txn.xid
  callbacks : y.txn.callbacks = x.txn.callbacks
  appended : y.txn.appended = x.txn.appended
  owner : y.producing.xid = x.producing.xid
  reserved : y.producing.reserved = x.producing.reserved

theorem SameBooks.refl (x : Session) : SameBooks x x := ⟨rfl, rfl, rfl, rfl, rfl⟩

variable {x : Session} {t : Txn}

theorem SameBooks.trans {y z : Session} (h : SameBooks x y) (h' : SameBooks y z) : SameBooks x z :=
  ⟨h'.xid.trans h.xid, h'.callbacks.trans h.callbacks,
    h'.appended.trans h.appended, h'.owner.trans h.owner,
    h'.reserved.trans h.reserved⟩

theorem appended_map {f : SqlBatch → SqlBatch} (hf : ∀ x, (f x).key = x.key ∧ (f x).base = x.base) :
    (t.batches.map f).map (fun x => (x.key, x.base)) = t.appended := by
  rw [map_map]
  refine map_congr_left fun x _ => ?_
  rw [Function.comp_apply, (hf x).1, (hf x).2]

theorem sameBooks_releaseInnermost (x : Session) : SameBooks x x.releaseInnermost := by
  unfold Session.releaseInnermost
  split
  · refine ⟨rfl, rfl, appended_map fun y => ?_, rfl, rfl⟩
    split_ifs <;> exact ⟨rfl, rfl⟩
  · exact .refl x

theorem sameBooks_abortInnermost (x : Session) : SameBooks x x.abortInnermost := by
  unfold Session.abortInnermost
  split
  · refine ⟨rfl, rfl, appended_map fun y => ?_, ?_, ?_⟩
    · split_ifs <;> exact ⟨rfl, rfl⟩
    · unfold rolledBack
      split_ifs <;> rfl
    · unfold rolledBack
      split_ifs <;> rfl
  · exact .refl x

theorem sameBooks_iterate {f : Session → Session}
    (hf : ∀ x, SameBooks x (f x)) (m : ℕ) (x : Session) : SameBooks x (f^[m] x) := by
  induction m generalizing x with
  | zero => exact .refl x
  | succ m ih => exact (hf x).trans (ih (f x))

/-- The partitions `PRODUCING` has reserved for this transaction. -/
def Session.held (x : Session) : Finset Key :=
  if x.producing.xid = x.txn.xid then x.producing.reserved else ∅

/-- `kafgres_produce()` on the books. Nothing is appended on a refusal;
a batch is noted with its base, and its release registered unless the
partition already has one. Either way `PRODUCING` is now this
transaction's. -/
theorem produce_books (x : Session) (k : Key) (append : Option ℤ) :
    let e := enterProduce x.producing x.txn.xid x.txn.subid k
    let y := x.produce k append
    y.txn.xid = x.txn.xid ∧ y.producing.xid = x.txn.xid ∧ e.reserve = decide (k ∉ x.held) ∧
      ((y.txn.callbacks = x.txn.callbacks ∧ y.txn.appended = x.txn.appended ∧
          y.producing.reserved = x.held ∧ (e.id = none ∨ append = none)) ∨
        ∃ base, append = some base ∧ e.id ≠ none ∧ y.txn.appended = x.txn.appended ++ [(k, base)] ∧
          y.txn.callbacks = (if e.reserve then
            x.txn.callbacks ++ [(k, base)] else x.txn.callbacks) ∧
          y.producing.reserved = if e.reserve then insert k x.held else x.held) := by
  intro e y
  have hxid : e.producing.xid = x.txn.xid := by
    simp only [e, enterProduce]
    split_ifs with hne
    · rfl
    · exact not_not.1 hne
  have hheld : e.producing.reserved = x.held := by
    simp only [e, enterProduce, Session.held]
    by_cases heq : x.producing.xid = x.txn.xid
    · rw [if_pos heq, if_neg (not_not.2 heq)]
    · rw [if_neg heq, if_pos heq]
  have hreserve : e.reserve = decide (k ∉ x.held) := by
    rw [← hheld]
    rfl
  unfold y Session.produce
  dsimp only
  split
  next id base hid =>
    refine ⟨rfl, ?_, hreserve, .inr ⟨base, rfl, by simp [e, hid], by simp [Txn.appended], rfl, ?_⟩⟩
    · split_ifs <;> exact hxid
    · rw [← hheld]
      split_ifs <;> rfl
  next hno =>
    refine ⟨rfl, hxid, hreserve, .inl ⟨rfl, rfl, hheld, ?_⟩⟩
    by_contra! h
    obtain ⟨id, hid⟩ := Option.ne_none_iff_exists'.1 h.1
    obtain ⟨base, happ⟩ := Option.ne_none_iff_exists'.1 h.2
    exact hno id base hid happ

-- ==== the invariant

/-- One partition: its ring, as a sorted list, is what the open
transactions have still to release. -/
structure PartInv (s : System n) (k : Key) (l : List ℤ) : Prop where
  holds : Holds (s.part k).slot.pending (s.part k).ring l
  reservations : (l : Multiset ℤ) = ∑ b, ((s.backend b).owed k : Multiset ℤ)
  below : ∀ base ∈ l, base < (s.part k).slot.nextOffset

/-- One backend, `used` being the transaction ids handed out so far. -/
structure BackendInv (used : Finset Xid) (x : Backend) : Prop where
  known : x.producing.xid = 0 ∨ x.producing.xid ∈ used
  current : ∀ t, x.txn = some t → t.xid ∈ used
  origin : ∀ t, x.txn = some t → ∀ c ∈ t.callbacks,
    ∃ y ∈ t.appended, y.1 = c.1
  covered : ∀ t, x.txn = some t → x.ending = false → ∀ y ∈ t.appended,
    ∃ base ≤ y.2, (y.1, base) ∈ t.callbacks
  reserved : ∀ t, x.txn = some t → x.ending = false →
    x.producing.xid = t.xid → ∀ k ∈ x.producing.reserved, ∃ base, (k, base) ∈ t.callbacks

structure LsoInv (s : System n) : Prop where
  parts : ∀ k, ∃ l, PartInv s k l
  backends : ∀ b, BackendInv s.used (s.backend b)

variable {s : System n} {b : Fin n} {k : Key} {used : Finset Xid} {l : List ℤ} {p : Part}
  {producing : Producing} {u : Txn} {base : ℤ}

theorem mem_owed {x : Backend} :
    base ∈ x.owed k ↔ ∃ t, x.txn = some t ∧ (k, base) ∈ t.callbacks := by
  cases x with
  | mk producing txn ending =>
    cases txn with
    | none => simp [owed]
    | some t =>
      simp only [owed, Option.toList_some, flatMap_cons,
        flatMap_nil, append_nil, mem_filterMap,
        Option.some.injEq, exists_eq_left']
      constructor
      · rintro ⟨c, hc, hb⟩
        split_ifs at hb with hk
        cases hb
        exact hk ▸ hc
      · intro hc
        exact ⟨(k, base), hc, if_pos rfl⟩

/-- The reservations of a partition are the releases registered for
it. -/
theorem PartInv.mem_iff (h : PartInv s k l) : base ∈ l ↔ ∃ b, base ∈ (s.backend b).owed k := by
  rw [← Multiset.mem_coe, h.reservations, Multiset.mem_sum]
  simp

theorem owed_of_callbacks {x y : Backend} (hx : x.txn = some t) (hy : y.txn = some u)
    (h : u.callbacks = t.callbacks) (k : Key) : y.owed k = x.owed k := by
  simp only [owed, hx, hy, Option.toList_some, flatMap_cons, flatMap_nil, h]

/-- One backend's share of the sum replaced. -/
theorem sum_owed_setBackend (s : System n) (b : Fin n) (x : Backend) (k : Key) :
    ((s.backend b).owed k : Multiset ℤ) + ∑ c, (((s.setBackend b x).backend c).owed k : Multiset ℤ)
      = (x.owed k : Multiset ℤ) + ∑ c, ((s.backend c).owed k : Multiset ℤ) := by
  rw [Fintype.sum_eq_add_sum_compl b, Fintype.sum_eq_add_sum_compl b
    (fun c => ((s.backend c).owed k : Multiset ℤ))]
  have hrest : ∑ c ∈ {b}ᶜ, (((s.setBackend b x).backend c).owed k : Multiset ℤ)
      = ∑ c ∈ {b}ᶜ, ((s.backend c).owed k : Multiset ℤ) := by
    refine Finset.sum_congr rfl fun c hc => ?_
    rw [Finset.mem_compl, Finset.mem_singleton] at hc
    rw [setBackend_of_ne s hc]
  rw [hrest, setBackend_self]
  exact add_left_comm ..

/-- A share that did not change leaves the sum. -/
theorem sum_owed_same {x : Backend} (h : x.owed k = (s.backend b).owed k) :
    ∑ c, (((s.setBackend b x).backend c).owed k : Multiset ℤ)
      = ∑ c, ((s.backend c).owed k : Multiset ℤ) := by
  have := sum_owed_setBackend s b x k
  rw [h] at this
  exact add_left_cancel this

theorem backends_setBackend {x : Backend}
    (h : ∀ c, BackendInv used (s.backend c)) (hx : BackendInv used x)
    (c : Fin n) : BackendInv used ((s.setBackend b x).backend c) := by
  rcases eq_or_ne c b with rfl | hc
  · rwa [setBackend_self]
  · rw [setBackend_of_ne s hc]
    exact h c

/-- A backend that owes what it owed. -/
theorem lsoInv_setBackend (h : LsoInv s) {x : Backend}
    (hx : BackendInv s.used x) (howed : ∀ k, x.owed k = (s.backend b).owed k) :
    LsoInv (s.setBackend b x) := by
  refine ⟨fun k => ?_, backends_setBackend h.backends hx⟩
  obtain ⟨l, hl⟩ := h.parts k
  refine ⟨l, hl.holds, ?_, hl.below⟩
  rw [sum_owed_same (howed k)]
  exact hl.reservations

/-- A partition whose reservations did not change, and whose log end did
not move back. -/
theorem lsoInv_setPart (h : LsoInv s)
    (hp : ∀ l, Holds (s.part k).slot.pending (s.part k).ring l → Holds p.slot.pending p.ring l)
    (hnext : (s.part k).slot.nextOffset ≤ p.slot.nextOffset) : LsoInv (s.setPart k p) := by
  refine ⟨fun j => ?_, h.backends⟩
  obtain ⟨l, hl⟩ := h.parts j
  rcases eq_or_ne j k with rfl | hj
  · refine ⟨l, ?_, hl.reservations, ?_⟩ <;> rw [setPart_self]
    · exact hp l hl.holds
    · exact fun base hbase => (hl.below base hbase).trans_le hnext
  · refine ⟨l, ?_, hl.reservations, ?_⟩ <;> rw [setPart_of_ne s hj]
    · exact hl.holds
    · exact hl.below

-- ==== steps

theorem backend_of_session (h : s.session b = some x) :
    s.backend b = ⟨x.producing, some x.txn, false⟩ := by
  unfold System.session at h
  split_ifs at h with hend
  obtain ⟨t, ht, rfl⟩ := Option.map_eq_some_iff.1 h
  rw [← ht, ← Bool.eq_false_iff.2 hend]

/-- A backend invariant read off the books alone. -/
theorem backendInv_of_books {y : Session} (h : BackendInv used ⟨x.producing, some x.txn, false⟩)
    (hb : SameBooks x y) : BackendInv used ⟨y.producing, some y.txn, false⟩ := by
  constructor
  · rw [hb.owner]
    exact h.known
  · rintro t ⟨⟩
    rw [hb.xid]
    exact h.current _ rfl
  · rintro t ⟨⟩
    rw [hb.callbacks, hb.appended]
    exact h.origin _ rfl
  · rintro t ⟨⟩ -
    rw [hb.callbacks, hb.appended]
    exact h.covered _ rfl rfl
  · rintro t ⟨⟩ -
    rw [hb.callbacks, hb.owner, hb.xid, hb.reserved]
    exact h.reserved _ rfl rfl

theorem backendInv_session (h : LsoInv s) (hx : s.session b = some x) :
    BackendInv s.used ⟨x.producing, some x.txn, false⟩ := by
  rw [← backend_of_session hx]
  exact h.backends b

/-- A savepoint statement. -/
theorem lsoInv_statement (h : LsoInv s) (b : Fin n) {op : SqlOp}
    (hop : ∀ x : Session, SameBooks x (x.step op)) : LsoInv (s.statement b op) := by
  unfold System.statement
  cases hx : s.session b with
  | none => exact h
  | some x =>
    exact lsoInv_setBackend h (backendInv_of_books (backendInv_session h hx) (hop x))
      (owed_of_callbacks (by rw [backend_of_session hx]) rfl (hop x).callbacks)

theorem lsoInv_begin (h : LsoInv s) (b : Fin n) (xid : Xid) : LsoInv (s.begin b xid) := by
  unfold System.begin
  split_ifs with hno
  · exact h
  rw [not_or, not_or, not_not] at hno
  obtain ⟨hzero, hused, htxn⟩ := hno
  -- More ids are handed out now, for every backend.
  have hgrow : ∀ c, BackendInv (insert xid s.used) (s.backend c) := fun c =>
    { h.backends c with
      known := (h.backends c).known.imp id (Finset.mem_insert_of_mem ·)
      current := fun t ht =>
        Finset.mem_insert_of_mem ((h.backends c).current t ht) }
  have hnew : BackendInv (insert xid s.used) { s.backend b with txn := some (.start xid) } := by
    refine ⟨(hgrow b).known, ?_, ?_, ?_, ?_⟩
    · rintro t ⟨⟩
      exact Finset.mem_insert_self ..
    · rintro t ⟨⟩ c hc
      cases hc
    · rintro t ⟨⟩ - y hy
      cases hy
    · rintro t ⟨⟩ - hxid
      have hsame : (s.backend b).producing.xid = xid := hxid
      rcases (h.backends b).known with h0 | hin
      · exact absurd (hsame.symm.trans h0) hzero
      · exact absurd (hsame ▸ hin) hused
  refine ⟨fun k => ?_, backends_setBackend hgrow hnew⟩
  obtain ⟨l, hl⟩ := h.parts k
  refine ⟨l, hl.holds, ?_, hl.below⟩
  rw [hl.reservations]
  refine (sum_owed_same ?_).symm
  simp only [owed, htxn]
  rfl

theorem lsoInv_finish (h : LsoInv s) (b : Fin n) : LsoInv (s.finish b) := by
  unfold System.finish
  split_ifs
  · exact h
  refine lsoInv_setBackend h ?_ fun _ => rfl
  obtain ⟨hknown, hcurrent, horigin, -, -⟩ := h.backends b
  exact ⟨hknown, hcurrent, horigin, fun _ _ h => absurd h (by simp),
    fun _ _ h => absurd h (by simp)⟩

theorem lsoInv_append (h : LsoInv s) (crc : List UInt8 → ℕ)
    (defaultBytes proc : ℕ) (k : Key) (a : AppendArgs) (io : WriteIo) :
    LsoInv (s.append crc defaultBytes proc k a io) := by
  have hdelta := a.batch.delta_nonneg
  obtain ⟨hten, hend⟩ := append_frame crc defaultBytes ((s.part k).writer proc) a io
  refine lsoInv_setPart h (fun l hl => ?_) ?_
  · show Holds (Segment.append crc defaultBytes ((s.part k).writer proc) a
      io).1.slot.pending (s.part k).ring l
    rw [hten.pending]
    exact hl
  · rcases hend with ⟨-, hnext⟩ | ⟨-, hnext⟩
    · exact hnext.ge
    · refine le_trans ?_ hnext.ge
      show (s.part k).slot.nextOffset ≤ (s.part k).slot.nextOffset + a.batch.lastOffsetDelta + 1
      omega

/-- What a registered release adds to what is owed. -/
theorem owed_cons {ending : Bool} (k j : Key) (base : ℤ) (rest : List (Key × ℤ)) :
    owed ⟨producing, some { t with
        callbacks := (j, base) :: rest }, ending⟩ k
      = (if j = k then [base] else []) ++
        owed ⟨producing, some { t with callbacks := rest }, ending⟩ k := by
  simp only [owed, Option.toList_some, flatMap_cons,
    flatMap_nil, append_nil, filterMap_cons]
  split_ifs <;> rfl

/-- A step on one backend and one partition: the ring moves with what
the backend owes there. -/
theorem lsoInv_update (h : LsoInv s) {x : Backend}
    {l' : List ℤ} (hl : PartInv s k l) (hx : BackendInv s.used x)
    (hother : ∀ j, j ≠ k → x.owed j = (s.backend b).owed j)
    (hholds : Holds p.slot.pending p.ring l')
    (hmoved : ((s.backend b).owed k : Multiset ℤ) + l' = x.owed k + l)
    (hbelow : ∀ base ∈ l', base < p.slot.nextOffset) : LsoInv ((s.setPart k p).setBackend b x) := by
  refine ⟨fun j => ?_, backends_setBackend h.backends hx⟩
  have hsum := sum_owed_setBackend (s.setPart k p) b x j
  rcases eq_or_ne j k with rfl | hj
  · have hp : ((s.setPart j p).setBackend b x).part j = p := setPart_self s j p
    refine ⟨l', by rwa [hp], ?_, by rwa [hp]⟩
    · refine add_left_cancel (a := ((s.backend b).owed j : Multiset ℤ)) ?_
      rw [hmoved, hl.reservations]
      exact hsum.symm
  · obtain ⟨l, hl⟩ := h.parts j
    have hp : ((s.setPart k p).setBackend b x).part j = s.part j := setPart_of_ne s hj p
    refine ⟨l, hp ▸ hl.holds, ?_, hp ▸ hl.below⟩
    rw [hl.reservations]
    exact (sum_owed_same (s := s.setPart k p) (hother j hj)).symm

/-- A callback releases what it owes and nothing else. -/
theorem lsoInv_callback (h : LsoInv s) (b : Fin n) : LsoInv (s.callback b) := by
  cases hend : (s.backend b).ending with
  | false =>
    have hs : s.callback b = s := by simp only [System.callback, hend]
    rwa [hs]
  | true =>
    cases htxn : (s.backend b).txn with
    | none =>
      have hs : s.callback b = s := by
        simp only [System.callback, hend, htxn]
      rwa [hs]
    | some t =>
      have hb := h.backends b
      cases hcb : t.callbacks with
      | nil =>
        have hs : s.callback b = s.setBackend b ⟨(s.backend b).producing, none, false⟩ := by
          simp only [System.callback, hend, htxn, hcb]
        rw [hs]
        refine lsoInv_setBackend h ⟨hb.known, by simp, by simp, by simp, by simp⟩ fun k => ?_
        simp only [owed, htxn, Option.toList_some, flatMap_cons, flatMap_nil, hcb]
        rfl
      | cons c rest =>
        obtain ⟨j, base⟩ := c
        have hs : s.callback b = (s.releasePending j base).setBackend b ⟨(s.backend b).producing,
              some { t with callbacks := rest }, true⟩ := by
          simp only [System.callback, hend, htxn, hcb]
        have hback : s.backend b = ⟨(s.backend b).producing,
            some { t with callbacks := (j, base) :: rest }, true⟩ := by
          rw [← hcb, ← htxn, ← hend]
        have howed : ∀ k, (s.backend b).owed k = (if j = k then [base] else []) ++ owed
              ⟨(s.backend b).producing, some { t with callbacks := rest }, true⟩ k := by
          intro k
          rw [← owed_cons, ← hback]
        rw [hs]
        obtain ⟨l, hl⟩ := h.parts j
        obtain ⟨-, -, hholds, -⟩ := release_holds hl.holds base
        refine lsoInv_update h hl ⟨hb.known, ?_, ?_, by simp, by simp⟩
          (fun k hk => ?_) hholds ?_ fun x hx =>
            hl.below x (mem_of_mem_erase hx)
        · rintro u ⟨⟩
          exact hb.current t htxn
        · rintro u ⟨⟩ c hc
          exact hb.origin t htxn c (hcb ▸ .tail _ hc)
        · rw [howed k, if_neg (Ne.symm hk), nil_append]
        · have hmem : base ∈ (l : Multiset ℤ) := by
            refine hl.mem_iff.2 ⟨b, ?_⟩
            rw [howed j, if_pos rfl]
            exact .head _
          rw [howed j, if_pos rfl, ← Multiset.coe_erase, singleton_append, ← Multiset.cons_coe,
            Multiset.cons_add, ← Multiset.add_cons,
            Multiset.cons_erase hmem]

/-- The backend after `kafgres_produce()`. `hbase` is what the store
promises of a base it answers: it lies past every release registered for
the partition. -/
theorem backendInv_produce (h : BackendInv used ⟨x.producing, some x.txn, false⟩) (k : Key)
    (append : Option ℤ) (hbase : ∀ base ∈ append, ∀ old, (k, old) ∈ x.txn.callbacks → old ≤ base) :
    BackendInv used ⟨(x.produce k append).producing, some (x.produce k append).txn, false⟩ := by
  obtain ⟨hxid, hown, hreserve, hcase⟩ := produce_books x k append
  have hused : x.txn.xid ∈ used := h.current _ rfl
  -- The partitions already held have a release registered.
  have hheld : ∀ j ∈ x.held, ∃ base, (j, base) ∈ x.txn.callbacks := by
    intro j hj
    unfold Session.held at hj
    split_ifs at hj with heq
    · exact h.reserved _ rfl rfl heq j hj
    · cases hj
  have hcurrent : ∀ t, some (x.produce k append).txn = some t → t.xid ∈ used := by
    rintro t ⟨⟩
    rwa [hxid]
  rcases hcase with ⟨hcb, happ, hres, -⟩ | ⟨base, hsome, -, happ, hcb, hres⟩
  · refine ⟨.inr (by rwa [hown]), hcurrent, ?_, ?_, ?_⟩
    · rintro t ⟨⟩
      rw [hcb, happ]
      exact h.origin _ rfl
    · rintro t ⟨⟩ -
      rw [hcb, happ]
      exact h.covered _ rfl rfl
    · rintro t ⟨⟩ - -
      rw [hres, hcb]
      exact hheld
  · have hsub : ∀ c ∈ x.txn.callbacks, c ∈ (x.produce k append).txn.callbacks := by
      rw [hcb]
      intro c hc
      split_ifs
      · exact mem_append_left _ hc
      · exact hc
    -- Whether or not this call reserves, the partition has a release now.
    have hk : ∃ old ≤ base, (k, old) ∈ (x.produce k append).txn.callbacks := by
      by_cases hnew : k ∉ x.held
      · refine ⟨base, le_rfl, ?_⟩
        rw [hcb, hreserve, if_pos (by simpa using hnew)]
        exact mem_append_right _ (mem_singleton_self _)
      · obtain ⟨old, hold⟩ := hheld k (not_not.1 hnew)
        exact ⟨old, hbase base hsome old hold, hsub _ hold⟩
    refine ⟨.inr (by rwa [hown]), hcurrent, ?_, ?_, ?_⟩
    · rintro t ⟨⟩ c hc
      have hc : c ∈ x.txn.callbacks ∨ c = (k, base) := by
        rw [hcb] at hc
        split_ifs at hc
        · exact (mem_append.1 hc).imp id mem_singleton.1
        · exact .inl hc
      rw [happ]
      rcases hc with hc | rfl
      · obtain ⟨y, hy, hyc⟩ := h.origin _ rfl c hc
        exact ⟨y, mem_append_left _ hy, hyc⟩
      · exact ⟨_, mem_append_right _ (mem_singleton_self _), rfl⟩
    · rintro t ⟨⟩ - y hy
      rw [happ] at hy
      rcases mem_append.1 hy with hy | hy
      · obtain ⟨old, hle, hold⟩ := h.covered _ rfl rfl y hy
        exact ⟨old, hle, hsub _ hold⟩
      · rw [mem_singleton.1 hy]
        exact hk
    · rintro t ⟨⟩ - - j hj
      rw [hres] at hj
      have hj' : j = k ∨ j ∈ x.held := by
        split_ifs at hj
        · exact Finset.mem_insert.1 hj
        · exact .inr hj
      rcases hj' with rfl | hj'
      · exact hk.imp fun _ hold => hold.2
      · exact (hheld j hj').imp fun _ hold => hsub _ hold

theorem owed_snoc {x y : Backend} (hx : x.txn = some t) (hy : y.txn = some u)
    (h : u.callbacks = t.callbacks ++ [(j, base)]) (k : Key) :
    y.owed k = x.owed k ++ (if j = k then [base] else []) := by
  simp only [owed, hx, hy, Option.toList_some, flatMap_cons,
    flatMap_nil, append_nil, h, filterMap_append,
    filterMap_cons, filterMap_nil]
  split_ifs <;> rfl

/-- `kafgres_produce()` refused before or after taking the lock. -/
theorem owed_refused {k : Key} (j : Key) :
    owed ⟨(x.produce k none).producing, some (x.produce k none).txn, false⟩ j
      = owed ⟨producing, some x.txn, false⟩ j := by
  obtain ⟨-, -, -, hcase⟩ := produce_books x k none
  rcases hcase with ⟨hcb, -⟩ | ⟨base, hsome, -⟩
  · exact owed_of_callbacks rfl rfl hcb j
  · cases hsome

/-- A batch landed at the log end: the ring has its reservation if the
call was to make one, and the backend owes exactly that release more. -/
theorem lsoInv_landed (h : LsoInv s) (hx : s.session b = some x) (hl : PartInv s k l)
    (hid : (enterProduce x.producing x.txn.xid x.txn.subid k).id ≠ none)
    (hend : (s.part k).slot.nextOffset < p.slot.nextOffset) (hholds : Holds p.slot.pending p.ring
      (if (enterProduce x.producing x.txn.xid x.txn.subid k).reserve then
        l.orderedInsert (· ≤ ·) (s.part k).slot.nextOffset else l)) :
    LsoInv ((s.setPart k p).setSession b (x.produce k (some (s.part k).slot.nextOffset))) := by
  have hback := backend_of_session hx
  have hold : ∀ old, (k, old) ∈ x.txn.callbacks → old < (s.part k).slot.nextOffset := fun old hin =>
    hl.below old (hl.mem_iff.2 ⟨b, mem_owed.2 ⟨_, by rw [hback], hin⟩⟩)
  obtain ⟨-, -, -, ⟨-, -, -, hno⟩ | ⟨base, hbase, -, -, hcb, -⟩⟩ :=
    produce_books x k (some (s.part k).slot.nextOffset)
  · rcases hno with hno | hno
    · exact absurd hno hid
    · cases hno
  cases hbase
  have hinv : BackendInv s.used ⟨(x.produce k (some (s.part k).slot.nextOffset)).producing,
        some (x.produce k (some (s.part k).slot.nextOffset)).txn, false⟩ :=
    backendInv_produce (backendInv_session h hx) k _ (by
      rintro _ ⟨⟩ old hin
      exact (hold old hin).le)
  cases hr : (enterProduce x.producing x.txn.xid x.txn.subid k).reserve with
  | false =>
    rw [hr] at hcb hholds
    refine lsoInv_update h hl hinv (fun j _ => ?_) hholds ?_ ?_
    · rw [hback]
      exact owed_of_callbacks rfl rfl hcb j
    · rw [hback]
      congr 2
      exact (owed_of_callbacks rfl rfl hcb k).symm
    · exact fun base hbase => (hl.below base hbase).trans hend
  | true =>
    rw [hr] at hcb hholds
    have howed := owed_snoc (x := s.backend b) (y := ⟨(x.produce k
      (some (s.part k).slot.nextOffset)).producing, some (x.produce k
        (some (s.part k).slot.nextOffset)).txn, false⟩)
      (by rw [hback]) rfl hcb
    refine lsoInv_update h hl hinv (fun j hj => ?_) hholds ?_ ?_
    · rw [howed j, if_neg (Ne.symm hj), append_nil]
    · rw [howed k, if_pos rfl, if_pos rfl, Multiset.coe_eq_coe.2 (perm_orderedInsert ..),
        ← Multiset.coe_add, add_assoc]
      rfl
    intro base hbase
    rw [if_pos rfl, mem_orderedInsert] at hbase
    rcases hbase with rfl | hbase
    · exact hend
    · exact (hl.below base hbase).trans hend

theorem lsoInv_produce (h : LsoInv s) (crc : List UInt8 → ℕ)
    (defaultBytes : ℕ) (b : Fin n) (k : Key) (call : Option (AppendArgs × WriteIo)) :
    LsoInv (s.produce crc defaultBytes b k call) := by
  unfold System.produce
  cases hx : s.session b with
  | none => exact h
  | some x =>
    have hback := backend_of_session hx
    have hinv := backendInv_produce (backendInv_session h hx) k none (by simp)
    have hrefused : LsoInv (s.setSession b (x.produce k none)) := by
      refine lsoInv_setBackend h hinv fun j => ?_
      rw [hback]
      exact owed_refused j
    dsimp only
    cases hid : (enterProduce x.producing x.txn.xid x.txn.subid k).id with
    | none => exact hrefused
    | some id =>
      cases call with
      | none => exact hrefused
      | some call =>
        obtain ⟨a, io⟩ := call
        obtain ⟨l, hl⟩ := h.parts k
        have hcases := appendPending_cases crc defaultBytes k a
          (enterProduce x.producing x.txn.xid x.txn.subid k).reserve io
          (show Holds ((s.part k).writer b).slot.pending (s.part k).ring l from hl.holds)
        dsimp only at hcases ⊢
        generalize appendPending crc defaultBytes k ((s.part k).writer b)
          (s.part k).ring a (enterProduce x.producing x.txn.xid
            x.txn.subid k).reserve io = r at hcases ⊢
        rcases hcases with
          ⟨⟨e, herr⟩, hholds, hend⟩ | ⟨⟨last, hok⟩, hend, hholds⟩
        · -- The store refused: only `PRODUCING` has moved.
          rw [herr]
          refine lsoInv_update h hl hinv (fun j _ => ?_) hholds ?_
            fun base hbase => (hl.below base hbase).trans_eq hend.symm
          · rw [hback]
            exact owed_refused j
          · rw [hback]
            congr 2
            exact (owed_refused k).symm
        · rw [hok]
          exact lsoInv_landed h hx hl (by rw [hid]; simp) hend hholds

-- ==== the run

theorem lsoInv_start (stripes : ℕ) (found : Key → Recovered)
    (place : Key → Fin slotsPerShard) (ring : Key → Cells) (disk : Key → Disk) :
    LsoInv (System.start n stripes found place ring disk) := by
  refine ⟨fun k => ⟨[], holds_empty _, ?_, by simp⟩, fun b => ?_⟩
  · exact (Finset.sum_eq_zero fun b _ => rfl).symm
  · exact ⟨.inl rfl, by simp [System.start], by simp [System.start],
      by simp [System.start], by simp [System.start]⟩

theorem lsoInv_step (crc : List UInt8 → ℕ) (defaultBytes : ℕ)
    (op : LsoOp n) (h : LsoInv s) : LsoInv (s.step crc defaultBytes op) := by
  cases op with
  | begin b xid => exact lsoInv_begin h b xid
  | savepoint b =>
    exact lsoInv_statement h b fun x => ⟨rfl, rfl, rfl, rfl, rfl⟩
  | release b sub =>
    exact lsoInv_statement h b fun x =>
      sameBooks_iterate sameBooks_releaseInnermost _ x
  | rollback b sub =>
    exact lsoInv_statement h b fun x =>
      sameBooks_iterate sameBooks_abortInnermost _ x
  | produce b k call => exact lsoInv_produce h crc defaultBytes b k call
  | append proc k a io => exact lsoInv_append h crc defaultBytes proc k a io
  | readLso k => exact h
  | finish b => exact lsoInv_finish h b
  | callback b => exact lsoInv_callback h b

/-- A registered release holds the floor down. -/
theorem PartInv.floor_le (h : PartInv s k l)
    (hb : base ∈ l) : (s.part k).slot.pendingFloor ≤ base := by
  have hfloor := h.holds.floor
  have hsorted := h.holds.sorted
  unfold Slot.pendingFloor
  rw [hfloor]
  cases l with
  | nil => cases hb
  | cons x l =>
    refine (min_le_left ..).trans ?_
    rcases mem_cons.1 hb with rfl | hb
    · exact le_rfl
    · exact rel_of_pairwise_cons hsorted hb

theorem PartInv.floor_eq (h : PartInv s k []) :
    (s.part k).slot.pendingFloor = (s.part k).slot.nextOffset := by
  unfold Slot.pendingFloor
  rw [h.holds.floor]
  rfl

theorem lastStableOffset_le (pending : ℤ) (kafka : Option ℤ) :
    lastStableOffset pending kafka ≤ pending := by
  unfold lastStableOffset
  split
  · split_ifs
    · exact min_le_left ..
    · exact le_rfl
  · exact le_rfl

/-- In every state of every run, the floor of a partition and with it
the LSO is at most the base of every batch an open transaction has
appended there; and when no transaction that appended there is left, the
floor is the log end. -/
theorem pendingFloor_safe (crc : List UInt8 → ℕ)
    (defaultBytes stripes : ℕ) (found : Key → Recovered)
    (place : Key → Fin slotsPerShard) (ring : Key → Cells)
    (disk : Key → Disk) (ops : List (LsoOp n)) (k : Key) :
    let s := ops.foldl (System.step crc defaultBytes) (System.start n stripes found place ring disk)
    (∀ b t, (s.backend b).txn = some t → (s.backend b).ending = false →
      ∀ x ∈ t.batches, x.key = k → (s.part k).slot.pendingFloor ≤ x.base ∧
        ∀ kafka, lastStableOffset (s.part k).slot.pendingFloor kafka ≤ x.base) ∧
    ((∀ b t, (s.backend b).txn = some t → ∀ x ∈ t.batches, x.key ≠ k) →
      (s.part k).slot.pendingFloor = (s.part k).slot.nextOffset) := by
  intro s
  have hinv : LsoInv s := Run.foldl_inv LsoInv (fun s op => lsoInv_step crc defaultBytes op)
    (lsoInv_start stripes found place ring disk) ops
  obtain ⟨l, hl⟩ := hinv.parts k
  constructor
  · intro b t htxn hend x hx hk
    obtain ⟨base, hle, hcb⟩ := (hinv.backends b).covered t htxn hend
      (x.key, x.base) (mem_map_of_mem hx)
    have hmem : base ∈ l := hl.mem_iff.2 ⟨b, mem_owed.2 ⟨t, htxn, by rw [← hk]; exact hcb⟩⟩
    have hfloor := (hl.floor_le hmem).trans hle
    exact ⟨hfloor, fun kafka => (lastStableOffset_le _ _).trans hfloor⟩
  · intro hnone
    have hnil : l = [] := by
      refine eq_nil_iff_forall_not_mem.2 fun base hbase => ?_
      obtain ⟨b, hb⟩ := hl.mem_iff.1 hbase
      obtain ⟨t, htxn, hcb⟩ := mem_owed.1 hb
      obtain ⟨y, hy, hyk⟩ := (hinv.backends b).origin t htxn _ hcb
      obtain ⟨x, hx, rfl⟩ := mem_map.1 hy
      exact hnone b t htxn x hx hyk
    subst hnil
    exact hl.floor_eq

end Kafgres.ProduceSql
