import Trunix.Lib.Bytes

/-!
# Lists of word stores

`storeAll` makes the stores of a list, one after the other.  In a coherent list two stores
are the same or do not overlap; then every word of the list can be read back, in whatever
order the stores are made.  A list of strokes paints values on the areas of keys; behind all
of them every area looks as its last stroke left it.
-/

set_option autoImplicit false

namespace Trunix.Lib

def storeAll : List (Nat × Nat) → Mem → Mem
  | [], m => m
  | s :: rest, m => storeAll rest (store32 m s.1 s.2)

def storedBytes (l : List (Nat × Nat)) : Set Nat := { x | ∃ s ∈ l, s.1 ≤ x ∧ x < s.1 + 4 }

/-- Two stores write different words or are the same. -/
def Coherent (l : List (Nat × Nat)) : Prop :=
  ∀ s ∈ l, ∀ t ∈ l, s = t ∨ s.1 + 4 ≤ t.1 ∨ t.1 + 4 ≤ s.1

theorem storeAll_frame : ∀ (l : List (Nat × Nat)) (m : Mem), Frame m (storeAll l m) (storedBytes l) := by
  intro l
  induction l with
  | nil => intro m x _; rfl
  | cons s rest ih =>
      intro m x out
      have outRest : x ∉ storedBytes rest := by
        rintro ⟨t, mem, inside⟩
        exact out ⟨t, List.mem_cons_of_mem _ mem, inside⟩
      have outFirst : x ∉ Set.Ico s.1 (s.1 + 4) := by
        intro inside
        exact out ⟨s, List.mem_cons_self, Set.mem_Ico.mp inside⟩
      exact (ih _ x outRest).trans (store32_frame m s.1 s.2 x outFirst)

/-- A byte depends on what it was before, and on no other byte. -/
theorem storeAll_local : ∀ (l : List (Nat × Nat)) {m m' : Mem} {x : Nat}, m x = m' x →
    storeAll l m x = storeAll l m' x := by
  intro l
  induction l with
  | nil => intro m m' x same; exact same
  | cons s rest ih =>
      intro m m' x same
      apply ih
      unfold store32 storeLE
      split
      · rfl
      · exact same

theorem storeAll_comm {l l' : List (Nat × Nat)} (apart : ∀ x ∈ storedBytes l, x ∉ storedBytes l') (m : Mem) :
    storeAll l' (storeAll l m) = storeAll l (storeAll l' m) := by
  funext x
  by_cases first : x ∈ storedBytes l
  · have kept := storeAll_frame l' m x (apart x first)
    rw [storeAll_frame l' _ x (apart x first)]
    exact storeAll_local l kept.symm
  · rw [storeAll_frame l _ x first]
    exact storeAll_local l' (storeAll_frame l m x first)

theorem Coherent.tail {s : Nat × Nat} {l : List (Nat × Nat)} (h : Coherent (s :: l)) : Coherent l :=
  fun a mem b mem' => h a (List.mem_cons_of_mem _ mem) b (List.mem_cons_of_mem _ mem')

theorem Coherent.load_eq : ∀ {l : List (Nat × Nat)}, Coherent l → ∀ {s : Nat × Nat} (m : Mem), s ∈ l →
    load32 (storeAll l m) s.1 = s.2 % 4294967296 := by
  intro l
  induction l with
  | nil => intro _ s m mem; cases mem
  | cons t rest ih =>
      intro coherent s m mem
      by_cases later : s ∈ rest
      · exact ih coherent.tail _ later
      · have same : s = t := (List.mem_cons.mp mem).resolve_right later
        subst same
        have kept : load32 (storeAll rest (store32 m s.1 s.2)) s.1 = load32 (store32 m s.1 s.2) s.1 := by
          apply (storeAll_frame rest _).load32_eq
          rintro x lo hi ⟨t, inRest, tLo, tHi⟩
          rcases coherent s List.mem_cons_self t (List.mem_cons_of_mem _ inRest) with equal | apart
          · exact later (equal ▸ inRest)
          · omega
        rw [storeAll, kept, load32_store32_same]

theorem storeAll_append : ∀ (l l' : List (Nat × Nat)) (m : Mem),
    storeAll (l ++ l') m = storeAll l' (storeAll l m) := by
  intro l
  induction l with
  | nil => intro l' m; rfl
  | cons s rest ih => intro l' m; exact ih l' _

theorem storeAll_written : ∀ {l : List (Nat × Nat)} {x : Nat}, x ∈ storedBytes l → ∀ m m' : Mem,
    storeAll l m x = storeAll l m' x := by
  intro l
  induction l with
  | nil => rintro x ⟨s, mem, _⟩; cases mem
  | cons s rest ih =>
      intro x inside m m'
      by_cases later : x ∈ storedBytes rest
      · exact ih later _ _
      · obtain ⟨t, mem, lo, hi⟩ := inside
        have here : t = s := (List.mem_cons.mp mem).resolve_right fun inRest => later ⟨t, inRest, lo, hi⟩
        subst here
        have first : store32 m t.1 t.2 x = store32 m' t.1 t.2 x := by
          unfold store32 storeLE
          rw [if_pos ⟨lo, hi⟩, if_pos ⟨lo, hi⟩]
        exact storeAll_local rest first

/-! ## Strokes -/

section Strokes

universe u v

variable {κ : Type u} {γ : Type v}

def lastAt [DecidableEq κ] (k : κ) : List (κ × γ) → Option γ
  | [] => none
  | s :: rest => (lastAt k rest).or (if s.1 = k then some s.2 else none)

theorem lastAt_mem [DecidableEq κ] {k : κ} {v : γ} : ∀ {strokes : List (κ × γ)}, lastAt k strokes = some v →
    (k, v) ∈ strokes := by
  intro strokes
  induction strokes with
  | nil => intro found; cases found
  | cons s rest ih =>
      intro found
      rcases Option.or_eq_some_iff.mp found with later | ⟨_, first⟩
      · exact List.mem_cons_of_mem _ (ih later)
      · split at first
        · rename_i same
          cases first
          rw [← same]
          exact List.mem_cons_self
        · cases first

/-- The values of a key have one area, and the areas of two keys are apart, for the keys
on the canvas. -/
structure Canvas (on : κ → Prop) (paint : κ × γ → List (Nat × Nat)) : Prop where
  area : ∀ k v v', on k → storedBytes (paint (k, v)) = storedBytes (paint (k, v'))
  apart : ∀ k k' v v', on k → on k' → k ≠ k' →
    ∀ x ∈ storedBytes (paint (k, v)), x ∉ storedBytes (paint (k', v'))

variable {on : κ → Prop} {paint : κ × γ → List (Nat × Nat)}

theorem Canvas.stroke_local [DecidableEq κ] (h : Canvas on paint) {k k' : κ} (v v' : γ) (key : on k)
    (key' : on k') (m : Mem) {x : Nat} (inside : x ∈ storedBytes (paint (k, v))) :
    storeAll (paint (k', v')) m x = if k' = k then storeAll (paint (k, v')) m x else m x := by
  split
  · rename_i same
    rw [same]
  · rename_i differ
    exact storeAll_frame _ m x (h.apart k k' v v' key key' (Ne.symm differ) x inside)

/-- An area looks as its last stroke left it. -/
theorem Canvas.last [DecidableEq κ] (h : Canvas on paint) {k : κ} (key : on k) (v : γ) :
    ∀ (strokes : List (κ × γ)), (∀ s ∈ strokes, on s.1) → ∀ (m : Mem), ∀ x ∈ storedBytes (paint (k, v)),
      storeAll (strokes.flatMap paint) m x =
        (lastAt k strokes).elim (m x) fun w => storeAll (paint (k, w)) m x := by
  intro strokes
  induction strokes with
  | nil => intro _ m x _; rfl
  | cons s rest ih =>
      intro keys m x inside
      obtain ⟨k', w⟩ := s
      have key' : on k' := keys (k', w) List.mem_cons_self
      have keysRest : ∀ s ∈ rest, on s.1 := fun s mem => keys s (List.mem_cons_of_mem _ mem)
      have later := ih keysRest (storeAll (paint (k', w)) m) x inside
      have first := h.stroke_local v w key key' m inside
      rw [List.flatMap_cons, storeAll_append, later, lastAt]
      cases found : lastAt k rest with
      | none =>
          rw [Option.none_or, Option.elim_none, first]
          split <;> rfl
      | some w' =>
          have written : x ∈ storedBytes (paint (k, w')) := h.area k v w' key ▸ inside
          exact storeAll_written written _ _

theorem strokes_frame {strokes : List (κ × γ)} (m : Mem) {x : Nat}
    (out : ∀ s ∈ strokes, x ∉ storedBytes (paint s)) : storeAll (strokes.flatMap paint) m x = m x := by
  apply storeAll_frame
  rintro ⟨t, mem, inside⟩
  obtain ⟨s, stroke, part⟩ := List.mem_flatMap.mp mem
  exact out s stroke ⟨t, part, inside⟩

end Strokes

end Trunix.Lib
