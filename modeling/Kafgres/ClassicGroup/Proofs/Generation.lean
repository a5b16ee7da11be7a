/-
Generations of a classic group.
-/
import Kafgres.ClassicGroup.Coordinator
import Kafgres.Lib.Run

namespace Kafgres.ClassicGroup

open List Option

variable {db db' : Db} {g : Group} {db'' : Db} {ms : Members}

-- ==== the rows

/-- Past the joins: see `Db.Generational`. -/
structure Current (g : Group) (ms : Members) : Prop where
  leader : ∃ m ∈ ms.rows, g.leaderMember = some m.memberId
  joined : ∀ m ∈ ms.rows, m.joinedGeneration = g.generation

/-- What the rows are in each state. -/
def InState (g : Group) (ms : Members) : Prop :=
  match g.state with
  | .empty => ms.rows = []
  | .preparingRebalance => ∀ m ∈ ms.rows, m.assignment = none
  | .completingRebalance => Current g ms ∧ ∀ m ∈ ms.rows, m.assignment = none
  | .stable => Current g ms ∧ ∀ m ∈ ms.rows, m.assignment ≠ none

structure Sound (db : Db) : Prop where
  absent : db.group = none → db.members.rows = []
  bounded : ∀ g, db.group = some g →
    ∀ m ∈ db.members.rows, m.joinedGeneration ≤ g.generation + 1
  inState : ∀ g, db.group = some g → InState g db.members

theorem Sound.generational (h : Sound db) : db.Generational := by
  intro g hg hstate
  have hin := h.inState g hg
  unfold InState at hin
  rcases hstate with hstate | hstate
  · rw [hstate] at hin
    exact ⟨hin.1.leader, hin.1.joined⟩
  · rw [hstate] at hin
    exact ⟨hin.1.leader, hin.1.joined⟩

theorem Sound.init : Sound {} := ⟨fun _ => rfl, nofun, nofun⟩

/-- What a change of the rows and of the group keeps of an earlier
state: no state but Stable becomes Stable, and Stable keeps its rows'
assignments. -/
structure Follows (db db' : Db) : Prop where
  born : db.group = none → ∀ g', db'.group = some g' → g'.state ≠ .stable
  grows : ∀ g, db.group = some g → ∃ g', db'.group = some g' ∧
    g.generation ≤ g'.generation ∧
    (g'.state = .completingRebalance →
      (g.state = .completingRebalance ∧ g.generation = g'.generation) ∨
        g.generation < g'.generation) ∧
    (g'.state = .stable → g.state = .stable ∧ g.generation = g'.generation ∧
      ∀ m' ∈ db'.members.rows, ∃ m ∈ db.members.rows,
        m.memberId = m'.memberId ∧ m.assignment = m'.assignment)

theorem Follows.refl (db : Db) : Follows db db := by
  constructor
  · intro hnone g' hg'
    simp [hnone] at hg'
  · intro g hg
    exact ⟨g, hg, le_rfl, fun hs => .inl ⟨hs, rfl⟩,
      fun hs => ⟨hs, rfl, fun m hm => ⟨m, hm, rfl, rfl⟩⟩⟩

theorem Follows.trans (h : Follows db db') (h' : Follows db' db'') : Follows db db'' := by
  constructor
  · intro hnone g'' hg'' hstable
    cases hg' : db'.group with
    | none => exact h'.born hg' g'' hg'' hstable
    | some g' =>
      obtain ⟨g₂, hg₂, -, -, hback⟩ := h'.grows g' hg'
      rw [hg''] at hg₂
      cases hg₂
      exact h.born hnone g' hg' (hback hstable).1
  · intro g hg
    obtain ⟨g', hg', hle, hcomp, hstab⟩ := h.grows g hg
    obtain ⟨g'', hg'', hle', hcomp', hstab'⟩ := h'.grows g' hg'
    refine ⟨g'', hg'', hle.trans hle', ?_, ?_⟩
    · intro hs
      rcases hcomp' hs with ⟨hs', heq⟩ | hlt
      · rcases hcomp hs' with ⟨hs₀, heq₀⟩ | hlt₀
        · exact .inl ⟨hs₀, heq₀.trans heq⟩
        · exact .inr (heq ▸ hlt₀)
      · exact .inr (lt_of_le_of_lt hle hlt)
    · intro hs
      obtain ⟨hs', heq', hrows'⟩ := hstab' hs
      obtain ⟨hs₀, heq₀, hrows⟩ := hstab hs'
      refine ⟨hs₀, heq₀.trans heq', fun m'' hm'' => ?_⟩
      obtain ⟨m', hm', hid', has'⟩ := hrows' m'' hm''
      obtain ⟨m, hm, hid, has⟩ := hrows m' hm'
      exact ⟨m, hm, hid.trans hid', has.trans has'⟩

/-- A step of the tables from a sound state. -/
structure Kept (db db' : Db) : Prop where
  sound : Sound db'
  follows : Follows db db'

theorem Kept.refl (h : Sound db) : Kept db db := ⟨h, .refl db⟩

theorem Kept.trans (h : Kept db db') (h' : Kept db' db'') :
    Kept db db'' := ⟨h'.sound, h.follows.trans h'.follows⟩

/-- An update of columns that say nothing about the generation. -/
theorem kept_touched (h : Sound db) {p : Member → Bool}
    {set : Member → Member} (same : ∀ m, (set m).memberId = m.memberId)
    (hjoined : ∀ m, (set m).joinedGeneration = m.joinedGeneration)
    (hassign : ∀ m, (set m).assignment = m.assignment) :
    Kept db (db.setMembers (db.members.updateWhere p set same)) := by
  have hrow : ∀ m' ∈ (db.members.updateWhere p set same).rows,
      ∃ m ∈ db.members.rows, m.memberId = m'.memberId ∧ m.joinedGeneration = m'.joinedGeneration ∧
        m.assignment = m'.assignment := by
    intro m' hm'
    obtain ⟨m, hm, rfl⟩ := mem_map.1 hm'
    refine ⟨m, hm, ?_⟩
    split
    · exact ⟨(same m).symm, (hjoined m).symm, (hassign m).symm⟩
    · exact ⟨rfl, rfl, rfl⟩
  have hback : ∀ m ∈ db.members.rows, ∃ m' ∈ (db.members.updateWhere p set same).rows,
        m'.memberId = m.memberId := by
    intro m hm
    refine ⟨_, mem_map_of_mem hm, ?_⟩
    split
    · exact same m
    · rfl
  have hcurrent : ∀ g, Current g db.members → Current g (db.members.updateWhere p set same) := by
    intro g hc
    constructor
    · obtain ⟨m, hm, hl⟩ := hc.leader
      obtain ⟨m', hm', hid⟩ := hback m hm
      exact ⟨m', hm', hid ▸ hl⟩
    · intro m' hm'
      obtain ⟨m, hm, -, hj, -⟩ := hrow m' hm'
      exact hj ▸ hc.joined m hm
  constructor
  · constructor
    · intro hnone
      exact map_eq_nil_iff.2 (h.absent hnone)
    · intro g hg m' hm'
      obtain ⟨m, hm, -, hj, -⟩ := hrow m' hm'
      exact hj ▸ h.bounded g hg m hm
    intro g hg
    have hin := h.inState g hg
    unfold InState at hin ⊢
    cases hs : g.state with
    | empty =>
      rw [hs] at hin
      exact map_eq_nil_iff.2 hin
    | preparingRebalance =>
      rw [hs] at hin
      intro m' hm'
      obtain ⟨m, hm, -, -, ha⟩ := hrow m' hm'
      exact ha ▸ hin m hm
    | completingRebalance | stable =>
      rw [hs] at hin
      refine ⟨hcurrent g hin.1, fun m' hm' => ?_⟩
      obtain ⟨m, hm, -, -, ha⟩ := hrow m' hm'
      exact ha ▸ hin.2 m hm
  · constructor
    · intro hnone g' hg'
      exact nomatch hnone.symm.trans hg'
    intro g hg
    refine ⟨g, hg, le_rfl, fun hs => .inl ⟨hs, rfl⟩, fun hs => ?_⟩
    refine ⟨hs, rfl, fun m' hm' => ?_⟩
    obtain ⟨m, hm, hid, -, ha⟩ := hrow m' hm'
    exact ⟨m, hm, hid, ha⟩

/-- A change that leaves the group preparing, or empty with no members,
in its generation. -/
theorem kept_reopened {set : Group → Group} (hgroup : db'.group = db.group.map set)
    (habsent : db.group = none → db'.members.rows = []) (hbounded : ∀ g, db.group = some g →
      ∀ m ∈ db'.members.rows, m.joinedGeneration ≤ g.generation + 1)
    (hassign : ∀ m ∈ db'.members.rows, m.assignment = none)
    (hgen : ∀ g, (set g).generation = g.generation)
    (hstate : ∀ g, db.group = some g → (set g).state = .preparingRebalance ∨
        ((set g).state = .empty ∧ db'.members.rows = [])) : Kept db db' := by
  constructor
  · constructor
    · intro hnone
      rw [hgroup] at hnone
      exact habsent (map_eq_none_iff.1 hnone)
    · intro g' hg'
      rw [hgroup] at hg'
      obtain ⟨g, hg, rfl⟩ := map_eq_some_iff.1 hg'
      rw [hgen]
      exact hbounded g hg
    · intro g' hg'
      rw [hgroup] at hg'
      obtain ⟨g, hg, rfl⟩ := map_eq_some_iff.1 hg'
      unfold InState
      rcases hstate g hg with hs | ⟨hs, hrows⟩ <;> rw [hs]
      exacts [hassign, hrows]
  · constructor
    · intro hnone g' hg'
      simp [hgroup, hnone] at hg'
    intro g hg
    refine ⟨set g, by rw [hgroup, hg]; rfl, (hgen g).ge, fun hs => ?_, fun hs => ?_⟩ <;>
      rcases hstate g hg with hs' | ⟨hs', -⟩ <;> exact nomatch hs.symm.trans hs'

/-- As above, where only the members change. -/
theorem kept_setMembers (hg : db.group = some g) (hpreparing : g.state = .preparingRebalance)
    (hbounded : ∀ m ∈ ms.rows, m.joinedGeneration ≤ g.generation + 1)
    (hassign : ∀ m ∈ ms.rows, m.assignment = none) : Kept db (db.setMembers ms) := by
  apply kept_reopened (show (db.setMembers ms).group = db.group.map fun g => g from map_id'.symm)
  · exact fun hnone => nomatch hg.symm.trans hnone
  · intro g' hg'
    cases hg.symm.trans hg'
    exact hbounded
  · exact hassign
  · exact fun _ => rfl
  · intro g' hg'
    cases hg.symm.trans hg'
    exact .inl hpreparing

-- ==== join

theorem kept_ensure (h : Sound db) : Kept db (ensure db) := by
  cases hg : db.group with
  | some g =>
    have hsame : ensure db = db := by
      unfold ensure
      rw [hg]
      cases db
      cases hg
      rfl
    rw [hsame]
    exact .refl h
  | none =>
    have hgroup : (ensure db).group = some {} := by
      unfold ensure
      rw [hg]
      rfl
    have hrows : (ensure db).members.rows = [] := h.absent hg
    constructor
    · constructor
      · intro hnone
        exact nomatch hgroup.symm.trans hnone
      · intro g' _ m hm
        simp [hrows] at hm
      · intro g' hg'
        cases hgroup.symm.trans hg'
        exact hrows
    · constructor
      · intro _ g' hg'
        cases hgroup.symm.trans hg'
        exact nofun
      · intro g' hg'
        exact nomatch hg.symm.trans hg'

/-- The rows after a join. -/
theorem joinMember_cases {now generation : ℤ}
    {memberId : String} {req : JoinRequest} {metadata : List UInt8} {m' : Member}
    (h : m' ∈ (joinMember ms now generation memberId req metadata).rows) :
    m' ∈ ms.rows ∨ (m'.joinedGeneration = generation + 1 ∧ (m'.assignment = none ∨
        ∃ m ∈ ms.rows, m'.assignment = m.assignment)) := by
  rcases Table.upsert_cases h with ⟨hm, -⟩ | ⟨rfl, -⟩ | ⟨m, hm, -, rfl⟩
  · exact .inl hm
  · exact .inr ⟨rfl, .inl rfl⟩
  · exact .inr ⟨rfl, .inr ⟨m, hm, rfl⟩⟩

theorem kept_join (h : Sound db) (now delay : ℤ) (memberId : String)
    (req : JoinRequest) (metadata : List UInt8) :
    Kept db (join db now delay memberId req metadata) := by
  have hensured := kept_ensure h
  refine hensured.trans ?_
  have h₁ := hensured.sound
  unfold join
  dsimp only
  generalize ensure db = db₁ at h₁
  cases hg : db₁.group with
  | none => exact .refl h₁
  | some g =>
    have hbounded : ∀ m ∈ (joinMember db₁.members now g.generation memberId
        req metadata).rows, m.joinedGeneration ≤ g.generation + 1 := by
      intro m hm
      rcases joinMember_cases hm with hm | ⟨hj, -⟩
      · exact h₁.bounded g hg m hm
      · exact hj.le
    dsimp only
    split
    · -- a rebalance opens: every assignment is forgotten
      apply kept_reopened rfl
      · exact fun hnone => nomatch hg.symm.trans hnone
      · intro g' hg' m' hm'
        cases hg.symm.trans hg'
        obtain ⟨m, hm, rfl⟩ := mem_map.1 hm'
        exact hbounded m hm
      · intro m' hm'
        obtain ⟨m, -, rfl⟩ := mem_map.1 hm'
        rfl
      · exact fun _ => rfl
      · exact fun _ _ => .inl rfl
    next hpreparing =>
      rw [not_not] at hpreparing
      have hin := h₁.inState g hg
      unfold InState at hin
      rw [hpreparing] at hin
      have hassign : ∀ m ∈ (joinMember db₁.members now g.generation
          memberId req metadata).rows, m.assignment = none := by
        intro m hm
        rcases joinMember_cases hm with hm | ⟨-, hnone | ⟨m₀, hm₀, he⟩⟩
        · exact hin m hm
        · exact hnone
        · exact he.trans (hin m₀ hm₀)
      split
      · apply kept_reopened rfl
        · exact fun hnone => nomatch hg.symm.trans hnone
        · intro g' hg'
          cases hg.symm.trans hg'
          exact hbounded
        · exact hassign
        · exact fun _ => rfl
        · intro g' hg'
          cases hg.symm.trans hg'
          exact .inl hpreparing
      · exact kept_setMembers hg hpreparing hbounded hassign

theorem kept_joinGroup (h : Sound db) (authorized : Bool) (version : ℕ)
    (now delay : ℤ) (newMemberId : String) (req : JoinRequest) :
    Kept db (joinGroup db authorized version now delay newMemberId req).1 := by
  unfold joinGroup
  split
  · exact .refl h
  split
  · exact .refl h
  split
  · exact .refl h
  dsimp only
  split
  · exact .refl h
  split
  · exact kept_join h ..
  · split
    · exact .refl h
    · exact kept_join h ..

-- ==== completion

theorem mem_byId {m : Member} : m ∈ byId ms ↔ m ∈ ms.rows :=
  (perm_insertionSort _ ms.rows).mem_iff

/-- A group that enters the next generation. -/
theorem kept_begun (hg : db.group = some g)
    {set : Group → Group} (hgen : (set g).generation = g.generation + 1)
    (hstate : (set g).state ≠ .stable) (hin : InState (set g) ms)
    (hjoined : ∀ m ∈ ms.rows, m.joinedGeneration = g.generation + 1) :
    Kept db ((db.setMembers ms).updateGroup set) := by
  have hgroup : ((db.setMembers ms).updateGroup set).group
      = some (set g) := congrArg (Option.map set) hg
  constructor
  · constructor
    · exact fun hno => nomatch hgroup.symm.trans hno
    · intro g' hg' m hm
      cases hgroup.symm.trans hg'
      have := hjoined m hm
      omega
    · intro g' hg'
      cases hgroup.symm.trans hg'
      exact hin
  · constructor
    · exact fun hno => nomatch hg.symm.trans hno
    intro g' hg'
    cases hg.symm.trans hg'
    refine ⟨_, hgroup, by omega, fun _ => .inr (by omega), fun hs => ?_⟩
    exact absurd hs hstate

section

variable (h : Sound db)
include h

/-- A rebalance that completes begins a generation of those who
rejoined. -/
theorem kept_completeJoin (hg : db.group = some g) (hpreparing : g.state = .preparingRebalance) :
    Kept db (completeJoin db).1 := by
  have hin := h.inState g hg
  unfold InState at hin
  rw [hpreparing] at hin
  unfold completeJoin
  rw [hg]
  dsimp only
  have hrow : ∀ m ∈ (db.members.delete fun m =>
      decide (m.joinedGeneration ≤ g.generation)).rows,
      m ∈ db.members.rows ∧ m.joinedGeneration = g.generation + 1 := by
    intro m hm
    obtain ⟨hm, hj⟩ := Table.mem_delete.1 hm
    have := h.bounded g hg m hm
    rw [decide_eq_false_iff_not] at hj
    exact ⟨hm, by omega⟩
  generalize (db.members.delete fun m =>
    decide (m.joinedGeneration ≤ g.generation)) = left at hrow
  rw [show byId (db.setMembers left).members = byId left from rfl]
  cases hleft : byId left with
  | nil =>
    have hnone : left.rows = [] := by
      apply eq_nil_iff_forall_not_mem.2
      intro m hm
      have := mem_byId.2 hm
      simp [hleft] at this
    apply kept_begun hg
    · rfl
    · exact nofun
    · exact hnone
    · exact fun m hm => (hrow m hm).2
  | cons leader rest =>
    dsimp only
    split
    · -- no common protocol: only stragglers go
      apply kept_setMembers hg hpreparing
      · exact fun m hm => h.bounded g hg m (hrow m hm).1
      · exact fun m hm => hin m (hrow m hm).1
    · have hleader : leader ∈ left.rows := by
        apply mem_byId.1
        rw [hleft]
        exact .head _
      apply kept_begun hg
      · rfl
      · exact nofun
      · exact ⟨⟨⟨leader, hleader, rfl⟩, fun m hm => (hrow m hm).2⟩, fun m hm => hin m (hrow m hm).1⟩
      · exact fun m hm => (hrow m hm).2

theorem kept_lookJoin (now : ℤ) (expired : Bool)
    (memberId : String) : Kept db (lookJoin db now expired memberId).1 := by
  have hdone : Kept db (if (db.group.any fun g =>
      decide (g.state = .preparingRebalance)) &&
      (expired || joinWindowClosed db now) then completeJoin db
      else (db, false)).1 := by
    split
    next hif =>
      rw [Bool.and_eq_true] at hif
      cases hg : db.group with
      | none =>
        rw [hg] at hif
        cases hif.1
      | some g =>
        rw [hg] at hif
        exact kept_completeJoin h hg (of_decide_eq_true hif.1)
    next => exact .refl h
  unfold lookJoin
  dsimp only
  generalize (if (db.group.any fun g =>
      decide (g.state = .preparingRebalance)) &&
      (expired || joinWindowClosed db now) then completeJoin db
      else (db, false)) = done at hdone
  split
  · exact hdone
  · split
    · exact hdone
    · exact hdone

-- ==== leave and sweep

/-- Members go and a rebalance opens. -/
theorem kept_openRebalance (gone : Member → Bool) (now : ℤ) :
    Kept db (openRebalance (db.setMembers (db.members.delete gone)) now) := by
  have hrow : ∀ m' ∈ (openRebalance (db.setMembers (db.members.delete gone)) now).members.rows,
      m'.assignment = none ∧ ∃ m ∈ (db.members.delete gone).rows,
        m.joinedGeneration = m'.joinedGeneration := by
    intro m' hm'
    obtain ⟨m, hm, rfl⟩ := mem_map.1 hm'
    exact ⟨rfl, m, hm, rfl⟩
  have hempty : (db.members.delete gone).rows = [] →
      (openRebalance (db.setMembers (db.members.delete gone)) now).members.rows = [] :=
    fun he => map_eq_nil_iff.2 he
  apply kept_reopened rfl
  · intro hnone
    apply hempty
    have hrows := h.absent hnone
    unfold Table.delete
    dsimp only
    rw [hrows]
    rfl
  · intro g hg m' hm'
    obtain ⟨-, m, hm, hj⟩ := hrow m' hm'
    exact hj ▸ h.bounded g hg m (Table.mem_delete.1 hm).1
  · exact fun m' hm' => (hrow m' hm').1
  · exact fun _ => rfl
  · intro g _
    by_cases he : (db.members.delete gone).rows = []
    · right
      exact ⟨if_pos he, hempty he⟩
    · left
      exact if_neg he

theorem kept_leave (now : ℤ) (memberId : String) : Kept db (leave db now memberId).1 := by
  unfold leave
  split
  · exact kept_openRebalance h _ now
  · exact .refl h

theorem kept_leaveGroup (now : ℤ) (ids : List String) : Kept db (leaveGroup db now ids).1 := by
  induction ids generalizing db with
  | nil => exact .refl h
  | cons id ids ih =>
    have hone := kept_leave h now id
    exact hone.trans (ih hone.sound)

theorem kept_touchHeartbeat (now : ℤ) (memberId : String) :
    Kept db (touchHeartbeat db now memberId) := by
  apply kept_touched h
  · exact fun _ => rfl
  · exact fun _ => rfl

theorem kept_sweep (now : ℤ) (awaiting : List String) : Kept db (sweep db now awaiting) := by
  have htouched : Kept db (awaiting.foldl (fun db id => touchHeartbeat db now id) db) := by
    induction awaiting generalizing db with
    | nil => exact .refl h
    | cons id ids ih =>
      have hone := kept_touchHeartbeat h now id
      exact hone.trans (ih hone.sound)
  refine htouched.trans ?_
  have h₁ := htouched.sound
  unfold sweep
  dsimp only
  generalize awaiting.foldl (fun db id => touchHeartbeat db now id) db = db₁ at h₁
  split
  · exact kept_openRebalance h₁ _ now
  · exact .refl h₁

theorem kept_heartbeatCode (now : ℤ) (memberId : String) (generationId : ℤ) :
    Kept db (heartbeatCode db now memberId generationId).1 := by
  unfold heartbeatCode
  split
  · exact .refl h
  split
  · exact .refl h
  split
  · exact .refl h
  · exact kept_touchHeartbeat h now memberId

-- ==== sync

/-- A sync that is not refused finds the group past its joins. -/
theorem syncRefused_eq_none {authorized : Bool}
    {req : SyncRequest} (hr : syncRefused db authorized req = none) :
    ∃ g, db.group = some g ∧ req.generationId = g.generation ∧ req.memberId ∈ db.members.keys ∧
      (g.state = .completingRebalance ∨ g.state = .stable) := by
  unfold syncRefused at hr
  split at hr
  · cases hr
  split at hr
  · cases hr
  next g hg =>
  split at hr
  · cases hr
  next hmem =>
  split at hr
  · cases hr
  next hgen =>
  split at hr
  · cases hr
  next hpreparing =>
  rw [not_not] at hmem hgen
  refine ⟨g, hg, hgen, hmem, ?_⟩
  have hin := h.inState g hg
  unfold InState at hin
  cases hs : g.state with
  | preparingRebalance => exact absurd hs hpreparing
  | completingRebalance => exact .inl rfl
  | stable => exact .inr rfl
  | empty =>
    rw [hs] at hin
    obtain ⟨m, hm, -⟩ := Table.mem_keys.1 hmem
    simp [hin] at hm

theorem Sound.current (hg : db.group = some g)
    (hstate : g.state = .completingRebalance ∨ g.state = .stable) : Current g db.members := by
  obtain ⟨hleader, hjoined⟩ := h.generational g hg hstate
  exact ⟨hleader, hjoined⟩

/-- The leader's list takes a group past its joins to Stable. -/
theorem sound_applyAssignments (hg : db.group = some g) (hcurrent : Current g db.members)
    (assignments : List (String × List UInt8)) : Sound (applyAssignments db assignments) := by
  have hgroup : (applyAssignments db assignments).group
      = some { g with state := .stable } := congrArg (Option.map _) hg
  have hrow : ∀ m' ∈ (applyAssignments db assignments).members.rows,
      ∃ m ∈ db.members.rows, m' = assignOne assignments m := by
    intro m' hm'
    obtain ⟨m, hm, rfl⟩ := mem_map.1 hm'
    exact ⟨m, hm, rfl⟩
  constructor
  · exact fun hno => nomatch hgroup.symm.trans hno
  · intro g' hg' m' hm'
    cases hgroup.symm.trans hg'
    obtain ⟨m, hm, rfl⟩ := hrow m' hm'
    exact h.bounded g hg m hm
  · intro g' hg'
    cases hgroup.symm.trans hg'
    refine ⟨⟨?_, ?_⟩, ?_⟩
    · obtain ⟨m, hm, hleader⟩ := hcurrent.leader
      exact ⟨_, mem_map_of_mem hm, hleader⟩
    · intro m' hm'
      obtain ⟨m, hm, rfl⟩ := hrow m' hm'
      exact hcurrent.joined m hm
    · intro m' hm' hnone
      obtain ⟨m, -, rfl⟩ := hrow m' hm'
      cases hnone

end

end Kafgres.ClassicGroup
