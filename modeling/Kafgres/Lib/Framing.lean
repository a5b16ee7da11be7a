/-
Strings cut into frames. A frame predicate is self-delimiting when no
string starts with two different frames; then a string has one parse,
and two parses that stop at different points agree as far as both go.
-/
import Mathlib.Data.List.Infix
import Mathlib.Data.List.Flatten

namespace Framing

open List

variable {β : Type} {Frame : List β → Prop}

/-- No string starts with two different frames. -/
def SelfDelimiting (Frame : List β → Prop) : Prop :=
  ∀ x y s, Frame x → Frame y → x <+: s → y <+: s → x = y

/-- `frames` are frames, and `s` starts with them one after the
other. -/
structure Parse (Frame : List β → Prop) (frames : List (List β))
    (s : List β) : Prop where
  frame : ∀ x ∈ frames, Frame x
  starts : frames.flatten <+: s

/-- The frame `x` of the parse begins at position `pos`. -/
def StartsAt (frames : List (List β)) (pos : ℕ) (x : List β) : Prop :=
  ∃ pre post, frames = pre ++ x :: post ∧ pre.flatten.length = pos

theorem Parse.nil (s : List β) : Parse Frame [] s := ⟨fun _ h => (not_mem_nil h).elim, nil_prefix⟩

variable {s : List β} {frames : List (List β)} {x : List β}

/-- A parse of a shorter string is one of the longer. -/
theorem Parse.mono {t : List β} (h : Parse Frame frames s) (hst : s <+: t) : Parse Frame frames t :=
  ⟨h.frame, h.starts.trans hst⟩

/-- One more frame. -/
theorem Parse.snoc (h : Parse Frame frames s) (hx : Frame x)
    (hs : x <+: s.drop frames.flatten.length) : Parse Frame (frames ++ [x]) s := by
  refine ⟨?_, ?_⟩
  · exact forall_mem_append.2 ⟨h.frame, forall_mem_singleton.2 hx⟩
  · obtain ⟨rest, rfl⟩ := h.starts
    rw [drop_left] at hs
    rw [flatten_append, flatten_singleton]
    exact (prefix_append_right_inj _).2 hs

variable {fs : List (List β)} {gs : List (List β)} {pos : ℕ}

/-- Two parses of one string: one extends the other. -/
theorem parses_comparable (hd : SelfDelimiting Frame)
    (hf : Parse Frame fs s) (hg : Parse Frame gs s) : fs <+: gs ∨ gs <+: fs := by
  induction fs generalizing gs s with
  | nil => exact .inl nil_prefix
  | cons x fs ih =>
    cases gs with
    | nil => exact .inr nil_prefix
    | cons y gs =>
      have hx : x <+: s := (prefix_append x fs.flatten).trans hf.starts
      have hy : y <+: s := (prefix_append y gs.flatten).trans hg.starts
      obtain rfl := hd x y s (hf.frame x (.head _)) (hg.frame y (.head _)) hx hy
      -- Past the common first frame, both parse the rest.
      obtain ⟨rest, rfl⟩ := hx
      have hf' : Parse Frame fs rest := ⟨fun z hz => hf.frame z (.tail _ hz),
          (prefix_append_right_inj x).1 hf.starts⟩
      have hg' : Parse Frame gs rest := ⟨fun z hz => hg.frame z (.tail _ hz),
          (prefix_append_right_inj x).1 hg.starts⟩
      rcases ih hf' hg' with h | h
      · exact .inl (cons_prefix_cons.2 ⟨rfl, h⟩)
      · exact .inr (cons_prefix_cons.2 ⟨rfl, h⟩)

theorem StartsAt.mono (h : StartsAt fs pos x) (hp : fs <+: gs) : StartsAt gs pos x := by
  obtain ⟨pre, post, rfl, hpos⟩ := h
  obtain ⟨rest, rfl⟩ := hp
  exact ⟨pre, post ++ rest, by simp, hpos⟩

/-- A position means the same frame in every parse that reaches past
it. -/
theorem StartsAt.of_parse (hd : SelfDelimiting Frame) (hf : Parse Frame fs s)
    (hg : Parse Frame gs s)
    (h : StartsAt fs pos x) (hpos : pos < gs.flatten.length) : StartsAt gs pos x := by
  rcases parses_comparable hd hf hg with hp | hp
  · exact h.mono hp
  obtain ⟨pre, post, rfl, rfl⟩ := h
  -- The shorter parse is longer than `pre`, so it has `x` too.
  rcases prefix_or_prefix_of_prefix hp (prefix_append pre (x :: post)) with hle | hle
  · have := hle.flatten.length_le
    omega
  obtain ⟨mid, rfl⟩ := hle
  rw [prefix_append_right_inj] at hp
  cases mid with
  | nil => simp at hpos
  | cons y mid =>
    obtain ⟨rfl, -⟩ := cons_prefix_cons.1 hp
    exact ⟨pre, mid, rfl, rfl⟩

/-- A parse of part of a framed string is the first of its frames. -/
theorem Parse.prefix_of_covered (hd : SelfDelimiting Frame)
    (hne : ∀ x, Frame x → x ≠ []) (hf : Parse Frame fs s)
    (hg : ∀ x ∈ gs, Frame x) (hs : s <+: gs.flatten) : fs <+: gs := by
  rcases parses_comparable hd (hf.mono hs) ⟨hg, prefix_refl _⟩ with
    h | h
  · exact h
  -- The other way round, the rest of `fs` has no bytes.
  obtain ⟨rest, rfl⟩ := h
  have hlen := (hf.starts.trans hs).length_le
  rw [flatten_append, length_append] at hlen
  have hrest : rest.flatten = [] := length_eq_zero_iff.1 (by omega)
  cases rest with
  | nil => rw [append_nil]
  | cons x rest =>
    rw [flatten_cons, append_eq_nil_iff] at hrest
    exact absurd hrest.1 (hne x (hf.frame x (by simp)))

/-- The bytes at a frame's position start with the frame. -/
theorem StartsAt.prefix_drop (hf : Parse Frame fs s) (h : StartsAt fs pos x) :
    Frame x ∧ x <+: s.drop pos := by
  obtain ⟨pre, post, rfl, rfl⟩ := h
  refine ⟨hf.frame x (by simp), ?_⟩
  obtain ⟨rest, hrest⟩ := hf.starts
  rw [← hrest, flatten_append, flatten_cons, append_assoc, drop_left, append_assoc]
  exact prefix_append ..

end Framing
