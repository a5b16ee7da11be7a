/-
The assignments of one generation come from one list.

`sync_group` takes the leader's list in Stable too, where others have
been answered from an earlier one (`deliveredTwice`). And a parked sync
asked for an older generation is answered with the assignment of the
current one (`syncedAcross`).
-/
import Kafgres.ClassicGroup.Proofs.Generation

namespace Kafgres.ClassicGroup

open List

variable {s : System} {db db' : Db} {g : Group} {id : String} {resp : SyncResponse}

-- ==== the condition

def Db.inState (db : Db) (state : GroupState) : Bool := db.group.any fun g => g.state = state

/-- A list brought in Stable says of no member anything else than its
row, and no sync parked in another generation is looked at in Stable. -/
def Steady (s : System) : Op → Prop
  | .sync authorized _ req => s.db.inState .stable = true →
      syncRefused s.db authorized req = none → supplies s.db req = true →
      ∀ m ∈ s.db.members.rows, entry req.assignments m.memberId = none ∨
        entry req.assignments m.memberId = m.assignment
  | .wake index _ _ =>
    match s.parked[index]? with
    | some (.sync id generation) => s.db.inState .stable = true → id ∈ s.db.members.keys →
        s.db.group.map (·.generation) = some generation
    | _ => True
  | _ => True

instance (s : System) (op : Op) : Decidable (Steady s op) :=
  match op with
  | .sync _ _ _ => inferInstanceAs (Decidable (_ → _ → _ → _))
  | .wake index _ _ =>
    match h : s.parked[index]? with
    | some (.sync id generation) =>
      decidable_of_iff (s.db.inState .stable = true → id ∈ s.db.members.keys →
        s.db.group.map (·.generation) = some generation)
        (by simp only [Steady, h])
    | some (.join _) => isTrue (by simp only [Steady, h])
    | none => isTrue (by simp only [Steady, h])
  | .join .. | .heartbeat .. | .leave .. | .sweep .. | .drop .. =>
    isTrue trivial

theorem inState_of_group {state : GroupState} (hg : db.group = some g)
    (hs : g.state = state) : db.inState state = true := by
  unfold Db.inState
  rw [hg]
  exact decide_eq_true hs

-- ==== the invariant

/-- The list supplies what the rows hold, and what was answered for their
generation. -/
structure Source (s : System) (g : Group)
    (list : List (String × List UInt8)) : Prop where
  supplied : (g.generation, list) ∈ s.supplied
  rows : ∀ m ∈ s.db.members.rows,
    m.assignment = some (assigned list m.memberId)
  answers : ∀ a ∈ s.answered, a.generation = g.generation →
    a.assignment = assigned list a.memberId

/-- Answers belong to the generations up to the present one, to it only
once the leader delivered. -/
structure Inv (s : System) : Prop where
  sound : Sound s.db
  past : ∀ a ∈ s.answered, ∃ g, s.db.group = some g ∧
    a.generation ≤ g.generation ∧
    (g.state = .completingRebalance → a.generation < g.generation)
  oneList : s.OneList
  source : ∀ g, s.db.group = some g → g.state = .stable →
    ∃ list, Source s g list

theorem Inv.init : Inv {} := by
  refine ⟨.init, nofun, ?_, nofun⟩
  rintro _ ⟨_, ⟨⟩, -⟩

/-- A change of the tables that is not a sync. -/
theorem Inv.follow (h : Inv s) (hk : Kept s.db db') (parked : List Parked) :
    Inv { s with db := db', parked := parked } := by
  refine ⟨hk.sound, ?_, h.oneList, ?_⟩
  · intro a ha
    obtain ⟨g, hg, hle, hlt⟩ := h.past a ha
    obtain ⟨g', hg', hgrow, hcomp, -⟩ := hk.follows.grows g hg
    refine ⟨g', hg', hle.trans hgrow, fun hs => ?_⟩
    rcases hcomp hs with ⟨hs₀, heq⟩ | hgt
    · exact heq ▸ hlt hs₀
    · exact lt_of_le_of_lt hle hgt
  · intro g' hg' hs'
    cases hg : s.db.group with
    | none => exact absurd hs' (hk.follows.born hg g' hg')
    | some g =>
      obtain ⟨g₂, hg₂, -, -, hback⟩ := hk.follows.grows g hg
      cases hg₂.symm.trans hg'
      obtain ⟨hs, hgen, hrows⟩ := hback hs'
      obtain ⟨list, hl⟩ := h.source g hg hs
      refine ⟨list, hgen ▸ hl.supplied, ?_, hgen ▸ hl.answers⟩
      intro m' hm'
      obtain ⟨m, hm, hid, has⟩ := hrows m' hm'
      rw [← has, ← hid]
      exact hl.rows m hm

/-- A sync is answered with success from a row of Stable. -/
theorem syncResponse_ok (h : Sound db)
    (hr : syncResponse db id = some resp) (hok : resp.errorCode = .none) :
    ∃ g, db.group = some g ∧ g.state = .stable ∧ ∃ m ∈ db.members.rows,
      m.memberId = id ∧ m.assignment = some resp.assignment := by
  unfold syncResponse at hr
  split at hr
  · cases hr
    cases hok
  next g hg =>
  split at hr
  · cases hr
    cases hok
  next m hfind =>
  obtain ⟨hm, hid⟩ := Table.find?_eq_some.1 hfind
  split at hr
  · cases hr
    cases hok
  next hpreparing =>
  obtain ⟨bytes, has, rfl⟩ := Option.map_eq_some_iff.1 hr
  refine ⟨g, hg, ?_, m, hm, hid, has⟩
  have hin := h.inState g hg
  unfold InState at hin
  cases hs : g.state with
  | stable => rfl
  | preparingRebalance => exact absurd hs hpreparing
  | completingRebalance =>
    rw [hs] at hin
    exact nomatch (hin.2 m hm).symm.trans has
  | empty =>
    rw [hs] at hin
    simp [hin] at hm

/-- A response for the present generation, taken from the rows. -/
theorem Inv.answer (h : Inv s) {generation : ℤ}
    (hresp : resp.errorCode = .none → syncResponse s.db id = some resp ∧
      ∀ g, s.db.group = some g → g.state = .stable → generation = g.generation) :
    Inv (s.answer generation id resp) := by
  unfold System.answer
  split
  next hok =>
    obtain ⟨hr, hgen⟩ := hresp hok
    obtain ⟨g, hg, hs, m, hm, hid, has⟩ := syncResponse_ok h.sound hr hok
    obtain rfl := hgen g hg hs
    obtain ⟨list, hl⟩ := h.source g hg hs
    have hnew : resp.assignment = assigned list id := by
      rw [hl.rows m hm, hid] at has
      exact (Option.some.inj has).symm
    have hall : ∀ a ∈ s.answered ++ [⟨g.generation, id, resp.assignment⟩],
        a.generation = g.generation →
        a.assignment = assigned list a.memberId :=
      forall_mem_append.2 ⟨hl.answers, forall_mem_singleton.2 fun _ => hnew⟩
    constructor
    · exact h.sound
    · refine forall_mem_append.2 ⟨h.past, forall_mem_singleton.2 ?_⟩
      exact ⟨g, hg, le_rfl, fun hc => nomatch hs.symm.trans hc⟩
    · intro generation hsome
      rcases eq_or_ne generation g.generation with rfl | hthis
      · exact ⟨list, hl.supplied, hall⟩
      obtain ⟨a, ha, hag⟩ := hsome
      have hold : ∀ a ∈ s.answered ++ [⟨g.generation, id, resp.assignment⟩],
          a.generation = generation → a ∈ s.answered :=
        forall_mem_append.2 ⟨fun _ ha _ => ha, forall_mem_singleton.2 fun h => absurd h.symm hthis⟩
      obtain ⟨list', hsup, hans⟩ := h.oneList generation ⟨a, hold a ha hag, hag⟩
      exact ⟨list', hsup, fun a ha hag => hans a (hold a ha hag) hag⟩
    · intro g' hg' _
      cases hg.symm.trans hg'
      exact ⟨list, hl.supplied, hl.rows, hall⟩
  next => exact h

-- ==== the leader

/-- The state after an accepted list. -/
def System.supply (s : System) (req : SyncRequest) : System :=
  { s with
    db := applyAssignments s.db req.assignments
    supplied := s.supplied ++ [(req.generationId, req.assignments)] }

theorem OneList.supply (h : s.OneList) (req : SyncRequest) : (s.supply req).OneList := by
  intro generation hsome
  obtain ⟨list, hsup, hans⟩ := h generation hsome
  exact ⟨list, mem_append_left _ hsup, hans⟩

variable {req : SyncRequest}

/-- The first list of a generation is the source of its assignments. -/
theorem source_first (h : Inv s) (hg : s.db.group = some g) (hs : g.state = .completingRebalance)
    (hgen : req.generationId = g.generation) :
    Source (s.supply req) { g with state := .stable } req.assignments := by
  have hin := h.sound.inState g hg
  unfold InState at hin
  rw [hs] at hin
  constructor
  · rw [← hgen]
    exact mem_append_right _ (mem_singleton_self _)
  · intro m' hm'
    obtain ⟨m, hm, rfl⟩ := mem_map.1 hm'
    show (assignOne req.assignments m).assignment = some (assigned _ m.memberId)
    unfold assignOne assigned
    rw [hin.2 m hm]
    cases entry req.assignments m.memberId with
    | none | some => rfl
  · intro a ha hag
    -- answers were all for earlier generations
    obtain ⟨g', hg', -, hlt⟩ := h.past a ha
    cases hg.symm.trans hg'
    have := hlt hs
    exact absurd hag (by show a.generation ≠ g.generation; omega)

/-- A list that changes no row leaves the source what it is. -/
theorem source_again {list : List (String × List UInt8)}
    (hl : Source s g list) (hsame : ∀ m ∈ s.db.members.rows,
      entry req.assignments m.memberId = none ∨ entry req.assignments m.memberId = m.assignment) :
    Source (s.supply req) { g with state := .stable } list := by
  refine ⟨mem_append_left _ hl.supplied, ?_, hl.answers⟩
  intro m' hm'
  obtain ⟨m, hm, rfl⟩ := mem_map.1 hm'
  have hrow := hl.rows m hm
  show (assignOne req.assignments m).assignment = some (assigned _ m.memberId)
  unfold assignOne
  rcases hsame m hm with he | he
  · rw [he, hrow]
    rfl
  · rw [he, hrow]

variable {authorized : Bool} {expired full : Bool}

theorem Inv.supply (h : Inv s) (hok : Steady s (.sync authorized full req))
    (hr : syncRefused s.db authorized req = none)
    (hsup : supplies s.db req = true) : Inv (s.supply req) := by
  obtain ⟨g, hg, hgen, -, hstate⟩ := syncRefused_eq_none h.sound hr
  have hgroup : (s.supply req).db.group = some { g with state := .stable } :=
    congrArg (Option.map _) hg
  constructor
  · exact sound_applyAssignments h.sound hg (h.sound.current hg hstate) _
  · intro a ha
    obtain ⟨g', hg', hle, -⟩ := h.past a ha
    cases hg.symm.trans hg'
    exact ⟨_, hgroup, hle, nofun⟩
  · exact OneList.supply h.oneList req
  · intro g' hg' _
    cases hgroup.symm.trans hg'
    rcases hstate with hs | hs
    · exact ⟨_, source_first h hg hs hgen⟩
    · obtain ⟨list, hl⟩ := h.source g hg hs
      exact ⟨list, source_again hl (hok (inState_of_group hg hs) hr hsup)⟩

-- ==== the steps

theorem Inv.park (h : Inv s) (full : Bool) (p : Parked) : Inv (s.park full p) := by
  unfold System.park
  split
  · exact h
  · exact h.follow (.refl h.sound) _

theorem syncRefused_ne_none {code : ErrorCode} (hr : syncRefused db authorized req = some code) :
    code ≠ .none := by
  rintro rfl
  unfold syncRefused at hr
  iterate 4
    split at hr
    · cases hr
  split at hr <;> cases hr

/-- A sync that is not refused: supply, then answer or park. -/
theorem sync_eq (hr : syncRefused s.db authorized req = none) (full : Bool) :
    s.sync authorized full req =
      let s' := if supplies s.db req then s.supply req else s
      match syncResponse s'.db req.memberId with
      | some resp => s'.answer req.generationId req.memberId resp
      | none => s'.park full (.sync req.memberId req.generationId) := by
  unfold System.sync syncGroup
  rw [hr]
  cases hsup : supplies s.db req with
  | true | false => rfl

theorem Inv.sync (h : Inv s) (hok : Steady s (.sync authorized full req)) :
    Inv (s.sync authorized full req) := by
  cases hr : syncRefused s.db authorized req with
  | some code =>
    have hsame : s.sync authorized full req = s := by
      unfold System.sync syncGroup
      rw [hr]
      exact if_neg (syncRefused_ne_none hr)
    rw [hsame]
    exact h
  | none =>
    obtain ⟨g, hg, hgen, -, -⟩ := syncRefused_eq_none h.sound hr
    have hbase : Inv (if supplies s.db req then s.supply req else s) ∧
        ∀ g', (if supplies s.db req then s.supply req
          else s).db.group = some g' → req.generationId = g'.generation := by
      split
      next hsup =>
        refine ⟨h.supply hok hr hsup, fun g' hg' => ?_⟩
        cases (congrArg (Option.map _) hg).symm.trans hg'
        exact hgen
      next =>
        refine ⟨h, fun g' hg' => ?_⟩
        cases hg.symm.trans hg'
        exact hgen
    rw [sync_eq hr]
    dsimp only
    generalize (if supplies s.db req then s.supply req else s) = s' at hbase
    obtain ⟨h', hgen'⟩ := hbase
    cases hresp : syncResponse s'.db req.memberId with
    | none => exact h'.park ..
    | some resp =>
      apply h'.answer
      exact fun _ => ⟨hresp, fun g' hg' _ => hgen' g' hg'⟩

/-- A response that a look at a parked sync gives with success is the
one of the rows. -/
theorem lookSync_ok (hl : lookSync db expired id = some resp)
    (hok : resp.errorCode = .none) : syncResponse db id = some resp := by
  unfold lookSync at hl
  split at hl
  next hr =>
    cases hl
    exact hr
  next =>
  split at hl
  · cases hl
    cases hok
  · cases hl

theorem Inv.wake (h : Inv s) {index : ℕ} {now : ℤ} (hok : Steady s (.wake index now expired)) :
    Inv (s.wake index now expired) := by
  unfold System.wake
  unfold Steady at hok
  dsimp only at hok
  cases hp : s.parked[index]? with
  | none => exact h
  | some p =>
    rw [hp] at hok
    cases p with
    | join id => exact h.follow (kept_lookJoin h.sound ..) _
    | sync id generation =>
      dsimp only
      cases hl : lookSync s.db expired id with
      | none => exact h
      | some resp =>
        have h' := h.follow (.refl h.sound) (s.parked.eraseIdx index)
        apply h'.answer
        intro hnone
        have hr := lookSync_ok hl hnone
        refine ⟨hr, fun g hg hs => ?_⟩
        -- the member is there, so the condition speaks of it
        obtain ⟨-, -, -, m, hm, hid, -⟩ := syncResponse_ok h.sound hr hnone
        have hgen := hok (inState_of_group hg hs) (hid ▸ Table.key_mem hm)
        rw [show s.db.group = some g from hg] at hgen
        exact (Option.some.inj hgen).symm

theorem Inv.step (s : System) (op : Op) (h : Inv s) (hok : Steady s op) : Inv (s.step op) := by
  cases op with
  | join authorized version now delay newMemberId full req =>
    have hj := h.follow (kept_joinGroup h.sound authorized version now delay newMemberId req)
      s.parked
    unfold System.step
    dsimp only
    split
    · exact hj
    · exact hj.park ..
  | sync authorized full req => exact h.sync hok
  | heartbeat now memberId generationId =>
    exact h.follow (kept_heartbeatCode h.sound ..) s.parked
  | leave now ids => exact h.follow (kept_leaveGroup h.sound ..) s.parked
  | sweep now => exact h.follow (kept_sweep h.sound ..) s.parked
  | wake index now expired => exact h.wake hok
  | drop index => exact h.follow (.refl h.sound) _

-- ==== the theorem

/-- In every run whose steps are steady: past the joins the leader is a
member and everyone joined this generation, and the syncs that succeed
for a generation are answered from one list of its leader. -/
theorem generation_safe (ops : List Op) (hok : Run.EachStep System.step {} ops Steady) :
    Run.Always System.step {} ops fun s =>
      s.db.Generational ∧ s.OneList := by
  intro pre hpre
  have h := Run.Always.of_eachStep Inv.step Inv.init hok pre hpre
  exact ⟨h.sound.generational, h.oneList⟩

-- ==== examples

/-- A join of `id` with the one protocol "range". -/
def joinOf (id : String) : Op := .join true 3 0 0 id false
    { groupId := "g", memberId := id, groupInstanceId := none,
      sessionTimeoutMs := 30000, rebalanceTimeoutMs := 60000,
      protocolType := "consumer", protocols := [("range", [])] }

def syncOf (id : String) (generation : ℤ) (assignments : List (String × List UInt8)) : Op :=
  .sync true false ⟨id, generation, assignments⟩

/-- Members a and b form generation 1, led by a. -/
def formed : List Op :=
  [joinOf "a", joinOf "b", .wake 0 0 false, .wake 0 0 false]

/-- The leader delivers, and delivers again with a and b exchanged before
b has synced. -/
def deliveredTwice : List Op :=
  formed ++
    [syncOf "a" 1 [("a", [1]), ("b", [2])], syncOf "a" 1 [("a", [2]), ("b", [1])], syncOf "b" 1 []]

/-- b's join in c's group times out and completes generation 2 of a and
b, with a's join still parked. b syncs and joins again; only then a's
join is looked at, past its deadline too, and completes generation 3 of b
alone. -/
def syncedAcross : List Op :=
  [joinOf "c", .wake 0 0 false, joinOf "a", joinOf "b", .wake 1 0 true, syncOf "b" 2 [], joinOf "b",
   .wake 0 0 true, .wake 0 0 false, .wake 1 0 false,
   syncOf "b" 3 [("b", [1])], .wake 0 0 false]

/-- In the first run a and b both hold [1] in generation 1; in the second
a sync of generation 2, for which nobody ever delivered, succeeds. -/
theorem generation_mixed :
    ¬ Run.Always System.step {} deliveredTwice (fun s => s.OneList) ∧
    ¬ Run.Always System.step {} syncedAcross (fun s => s.OneList) := by
  constructor
  · intro h
    have hrun := h deliveredTwice (prefix_refl _)
    have hans : (deliveredTwice.foldl System.step {}).answered =
        [⟨1, "a", [1]⟩, ⟨1, "a", [2]⟩, ⟨1, "b", [1]⟩] := by
      decide +kernel
    obtain ⟨list, -, hall⟩ := hrun 1 ⟨⟨1, "a", [1]⟩, by rw [hans]; simp, rfl⟩
    rw [hans] at hall
    have h1 := hall ⟨1, "a", [1]⟩ (by simp) rfl
    have h2 := hall ⟨1, "a", [2]⟩ (by simp) rfl
    exact nomatch h1.trans h2.symm
  · intro h
    have hrun := h syncedAcross (prefix_refl _)
    have hans : (syncedAcross.foldl System.step {}).answered = [⟨3, "b", [1]⟩, ⟨2, "b", [1]⟩] := by
      decide +kernel
    have hsup : (syncedAcross.foldl System.step {}).supplied = [(3, [("b", [1])])] := by
      decide +kernel
    obtain ⟨list, hmem, -⟩ := hrun 2 ⟨⟨2, "b", [1]⟩, by rw [hans]; simp, rfl⟩
    rw [hsup] at hmem
    simp at hmem

/-- The leader delivers once and repeats its sync, then a second
generation begins. -/
def deliveredOnce : List Op :=
  formed ++
    [syncOf "b" 1 [], syncOf "a" 1 [("a", [1]), ("b", [2])], .wake 0 0 false,
     syncOf "a" 1 [("a", [1]), ("b", [2])],
     joinOf "b", joinOf "a", .wake 0 0 false, .wake 0 0 false,
     syncOf "a" 2 [("b", [1])], syncOf "b" 2 []]

theorem generation_safe_twoGenerations :
    Run.EachStep System.step {} deliveredOnce Steady ∧
    (deliveredOnce.foldl System.step {}).OneList := by
  have hok : Run.EachStep System.step {} deliveredOnce Steady := by
    decide +kernel
  exact ⟨hok, (generation_safe deliveredOnce hok deliveredOnce (prefix_refl _)).2⟩

end Kafgres.ClassicGroup
