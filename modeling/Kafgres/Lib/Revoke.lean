/-
A reader that walks a stream of items and is told beforehand whose items
to distrust: each notice names an owner and the position from which the
owner is revoked, and certain items of an owner end its revocation. The
reader keeps a set of revoked owners and one pointer into the notices.
-/
import Mathlib.Data.List.Sort

namespace Revoke

open List

/-- The owner is revoked from a position on. -/
structure Notice (P : Type) where
  owner : P
  first : ℤ
deriving DecidableEq, Repr

/-- How the reader sees an item: whose it is, where it ends, and whether
it ends a revocation. -/
structure Item (P : Type) where
  owner : P
  last : ℤ
  ends : Bool

variable {P α : Type} [DecidableEq P] {item : α → Item P}
variable {notices : List (Notice P)} {pre post : List α} {a : α} {left : List (Notice P)}
  {revoked : List P} {n : Notice P} {last : ℤ}

/-- Each item with whether its owner is revoked when the reader gets to
it. `notices` are those still to begin. -/
def walk (item : α → Item P) : List (Notice P) → List P → List α → List (α × Bool)
  | _, _, [] => []
  | notices, revoked, a :: as =>
    let begun : Notice P → Bool := fun n => decide (n.first ≤ (item a).last)
    let revoked := (notices.takeWhile begun).map (·.owner) ++ revoked
    let still := if (item a).ends then
      revoked.filter fun p => decide (p ≠ (item a).owner) else revoked
    (a, revoked.contains (item a).owner) :: walk item (notices.dropWhile begun) still as

/-- Walk the stream with the notices in the order they begin. -/
def read (item : α → Item P) (notices : List (Notice P)) (as : List α) : List (α × Bool) :=
  walk item (notices.insertionSort fun n n' => n.first ≤ n'.first) [] as

/-- A notice of the item's owner has begun by then, and no item of the
stream since it began and before this one ends it. -/
def Revoked (item : α → Item P) (notices : List (Notice P)) (as : List α) (a : α) : Prop :=
  ∃ n ∈ notices, n.owner = (item a).owner ∧ n.first ≤ (item a).last ∧
    ∀ c ∈ as, (item c).last < (item a).last → (item c).ends = true →
      (item c).owner = (item a).owner → (item c).last < n.first

instance (item : α → Item P) (notices : List (Notice P)) (as : List α)
    (a : α) : Decidable (Revoked item notices as a) :=
  inferInstanceAs (Decidable (∃ n ∈ notices, _ ∧ _ ∧ ∀ c ∈ as, _))

/-- A notice of `p` that has begun and that no item of `pre` ends. -/
def Open (item : α → Item P) (notices : List (Notice P)) (pre : List α) (p : P) (last : ℤ) : Prop :=
  ∃ n ∈ notices, n.owner = p ∧ n.first ≤ last ∧
    ∀ c ∈ pre, (item c).ends = true → (item c).owner = p → (item c).last < n.first

omit [DecidableEq P] in
theorem mem_takeWhile_begun (h : notices.Pairwise fun n n' => n.first ≤ n'.first) :
    n ∈ notices.takeWhile (fun n => decide (n.first ≤ last)) ↔ n ∈ notices ∧ n.first ≤ last := by
  induction notices with
  | nil => simp
  | cons m notices ih =>
    obtain ⟨hm, hrest⟩ := pairwise_cons.1 h
    by_cases hle : m.first ≤ last
    · rw [takeWhile_cons_of_pos (by simpa using hle)]
      simp only [mem_cons, ih hrest]
      constructor
      · rintro (rfl | ⟨hn, hle⟩)
        · exact ⟨Or.inl rfl, hle⟩
        · exact ⟨Or.inr hn, hle⟩
      · rintro ⟨rfl | hn, hle⟩
        · exact Or.inl rfl
        · exact Or.inr ⟨hn, hle⟩
    · rw [takeWhile_cons_of_neg (by simpa using hle)]
      refine ⟨fun hn => (nomatch hn), fun ⟨hn, hnl⟩ => absurd ?_ hle⟩
      rcases mem_cons.1 hn with rfl | hn
      · exact hnl
      · exact (hm n hn).trans hnl

omit [DecidableEq P] in
theorem mem_dropWhile_begun (h : notices.Pairwise fun n n' => n.first ≤ n'.first) :
    n ∈ notices.dropWhile (fun n => decide (n.first ≤ last)) ↔ n ∈ notices ∧ last < n.first := by
  induction notices with
  | nil => simp
  | cons m notices ih =>
    obtain ⟨hm, hrest⟩ := pairwise_cons.1 h
    by_cases hle : m.first ≤ last
    · rw [dropWhile_cons_of_pos (by simpa using hle), ih hrest]
      refine ⟨fun ⟨hn, hlt⟩ => ⟨.tail _ hn, hlt⟩, ?_⟩
      rintro ⟨hn, hlt⟩
      rcases mem_cons.1 hn with rfl | hn
      · omega
      · exact ⟨hn, hlt⟩
    · rw [dropWhile_cons_of_neg (by simpa using hle)]
      refine ⟨fun hn => ⟨hn, ?_⟩, fun hn => hn.1⟩
      rcases mem_cons.1 hn with rfl | hn
      · omega
      · have := hm n hn
        omega

/-- The reader's state after `pre`: the notices left are those that have
not begun, and the owners kept are those with one that has and has not
been ended. -/
structure Reached (item : α → Item P) (notices : List (Notice P))
    (pre : List α) (left : List (Notice P)) (revoked : List P) : Prop where
  sorted : left.Pairwise fun n n' => n.first ≤ n'.first
  left : ∀ n, n ∈ left ↔ n ∈ notices ∧ ∀ c ∈ pre, (item c).last < n.first
  revoked : ∀ p, p ∈ revoked ↔ ∃ n ∈ notices, n.owner = p ∧
    (∃ c ∈ pre, n.first ≤ (item c).last) ∧
    ∀ c ∈ pre, (item c).ends = true → (item c).owner = p → (item c).last < n.first

omit [DecidableEq P] in
/-- The owners revoked at an item. -/
theorem Reached.at_item (h : Reached item notices pre left revoked)
    (hord : ∀ c ∈ pre, (item c).last < (item a).last) (p : P) :
    p ∈ (left.takeWhile fun n => decide (n.first ≤ (item a).last)).map (·.owner) ++ revoked ↔
      Open item notices pre p (item a).last := by
  rw [mem_append, mem_map]
  constructor
  · rintro (⟨n, hn, rfl⟩ | hp)
    · obtain ⟨hn, hle⟩ := (mem_takeWhile_begun h.sorted).1 hn
      obtain ⟨hn, hlt⟩ := (h.left n).1 hn
      exact ⟨n, hn, rfl, hle, fun c hc _ _ => hlt c hc⟩
    · obtain ⟨n, hn, hown, ⟨c, hc, hle⟩, hends⟩ := (h.revoked p).1 hp
      exact ⟨n, hn, hown, hle.trans (hord c hc).le, hends⟩
  · rintro ⟨n, hn, hown, hle, hends⟩
    by_cases hnew : ∀ c ∈ pre, (item c).last < n.first
    · left
      exact ⟨n, (mem_takeWhile_begun h.sorted).2 ⟨(h.left n).2 ⟨hn, hnew⟩, hle⟩, hown⟩
    · right
      push Not at hnew
      exact (h.revoked p).2 ⟨n, hn, hown, hnew, hends⟩

/-- One item further. -/
theorem Reached.step (h : Reached item notices pre left revoked)
    (hord : ∀ c ∈ pre, (item c).last < (item a).last) :
    Reached item notices (pre ++ [a]) (left.dropWhile fun n => decide (n.first ≤ (item a).last))
      (let now := (left.takeWhile fun n =>
          decide (n.first ≤ (item a).last)).map (·.owner) ++ revoked
        if (item a).ends then
          now.filter fun p => decide (p ≠ (item a).owner) else now) := by
  have hat := h.at_item hord
  refine ⟨h.sorted.sublist (dropWhile_sublist _), fun n => ?_, fun p => ?_⟩
  · rw [mem_dropWhile_begun h.sorted, h.left n]
    simp only [forall_mem_append, forall_mem_singleton]
    exact ⟨fun ⟨⟨hn, hpre⟩, hlt⟩ => ⟨hn, hpre, hlt⟩, fun ⟨hn, hpre, hlt⟩ => ⟨⟨hn, hpre⟩, hlt⟩⟩
  have hbegun : ∀ n : Notice P, (∃ c ∈ pre ++ [a], n.first ≤ (item c).last) ↔
        n.first ≤ (item a).last := by
    intro n
    constructor
    · rintro ⟨c, hc, hle⟩
      rcases mem_append.1 hc with hc | hc
      · exact hle.trans (hord c hc).le
      · rwa [mem_singleton.1 hc] at hle
    · exact fun hle => ⟨a, mem_append_right _ mem_cons_self, hle⟩
  simp only [hbegun, forall_mem_append, forall_mem_singleton]
  by_cases hends : (item a).ends = true
  · rw [if_pos hends, mem_filter, hat p, decide_eq_true_eq]
    constructor
    · rintro ⟨⟨n, hn, hown, hle, hpre⟩, hne⟩
      exact ⟨n, hn, hown, hle, hpre, fun _ heq => absurd heq.symm hne⟩
    rintro ⟨n, hn, hown, hle, hpre, hlast⟩
    refine ⟨⟨n, hn, hown, hle, hpre⟩, fun heq => ?_⟩
    have := hlast hends heq.symm
    omega
  · rw [if_neg hends, hat p]
    constructor
    · rintro ⟨n, hn, hown, hle, hpre⟩
      exact ⟨n, hn, hown, hle, hpre, fun he => absurd he hends⟩
    · rintro ⟨n, hn, hown, hle, hpre, -⟩
      exact ⟨n, hn, hown, hle, hpre⟩

omit [DecidableEq P] in
/-- In an ordered stream the items before `a` are those that end
before it. -/
theorem open_iff_revoked (hord : (pre ++ a :: post).Pairwise fun c c' =>
      (item c).last < (item c').last) :
    Open item notices pre (item a).owner (item a).last ↔
      Revoked item notices (pre ++ a :: post) a := by
  obtain ⟨-, hpost, hcross⟩ := pairwise_append.1 hord
  have hafter := (pairwise_cons.1 hpost).1
  have hbefore : ∀ c ∈ pre ++ a :: post, (item c).last < (item a).last → c ∈ pre := by
    intro c hc hlt
    refine (mem_append.1 hc).resolve_right fun hc => ?_
    rcases mem_cons.1 hc with rfl | hc
    · omega
    · have := hafter c hc
      omega
  refine exists_congr fun n => and_congr_right fun _ =>
    and_congr_right fun _ => and_congr_right fun _ => ?_
  refine ⟨fun h c hc hlt => h c (hbefore c hc hlt), ?_⟩
  exact fun h c hc => h c (mem_append_left _ hc) (hcross c hc a mem_cons_self)

/-- From a state the walk has reached, what it says of each item. -/
theorem Reached.walk_eq (h : Reached item notices pre left revoked)
    (hord : (pre ++ post).Pairwise fun c c' =>
      (item c).last < (item c').last) :
    walk item left revoked post =
      post.map fun a => (a, decide (Revoked item notices (pre ++ post) a)) := by
  induction post generalizing pre left revoked with
  | nil => rfl
  | cons a post ih =>
    have hpre : ∀ c ∈ pre, (item c).last < (item a).last := fun c hc =>
      (pairwise_append.1 hord).2.2 c hc a mem_cons_self
    have hsplit : pre ++ a :: post = (pre ++ [a]) ++ post := by simp
    have hnow : (((left.takeWhile fun n =>
        decide (n.first ≤ (item a).last)).map (·.owner) ++ revoked).contains (item a).owner) =
        decide (Revoked item notices (pre ++ a :: post) a) := by
      rw [Bool.eq_iff_iff, contains_iff_mem, decide_eq_true_eq,
        h.at_item hpre, open_iff_revoked hord]
    rw [walk, map_cons]
    rw [hnow, ih (h.step hpre) (hsplit ▸ hord), ← hsplit]

/-- What the reader says of each item of an ordered stream. -/
theorem read_eq {as : List α} (hord : as.Pairwise fun c c' => (item c).last < (item c').last) :
    read item notices as = as.map fun a => (a, decide (Revoked item notices as a)) := by
  have hstart : Reached item notices []
      (notices.insertionSort fun n n' => n.first ≤ n'.first) [] := by
    refine ⟨?_, fun n => ?_, fun p => ?_⟩
    · exact pairwise_insertionSort (fun n n' : Notice P => n.first ≤ n'.first) notices
    · simp [mem_insertionSort]
    · simp
  exact hstart.walk_eq hord

end Revoke
