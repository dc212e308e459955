import Mathlib.Logic.Function.Basic
import Mathlib.Data.Set.Pairwise.Lattice
import Mathlib.Order.CompletePartialOrder

/-!
# Memories of several owners

An abstract machine for programs that are kept apart.  Every owner has a memory that only
its own deeds change; a new owner starts with a copy of the memory of another one.  What an
owner finds is then a function of its deeds and those of its ancestors, which the last
theorems of the first part say.  The second part is about the places in which such memories
are kept: each owner has a footprint of its own, and writes to one footprint or to places
that are not taken leave the others as they are.
-/

set_option autoImplicit false

namespace Trunix.Lib

universe u v w

/-! ## Deeds -/

inductive Deed (α : Type v) (β : Type w) where
  | store (a : α) (b : β)
  | extend (more : α → Option β)
  | replace (image : α → Option β)

inductive MemoryEvent (ι : Type u) (α : Type v) (β : Type w) where
  | deed (p : ι) (d : Deed α β)
  | copy (p c : ι)

section Memories

variable {ι : Type u} {α : Type v} {β : Type w}

def Deed.on [DecidableEq α] : Deed α β → (α → Option β) → α → Option β
  | .store a b, f => Function.update f a (some b)
  | .extend more, f => fun a => (f a).or (more a)
  | .replace image, _ => image

/-- A store hits memory that is there, and an extension memory that is not. -/
def Deed.Fits : Deed α β → (α → Option β) → Prop
  | .store a _, f => f a ≠ none
  | .extend more, f => ∀ a, more a ≠ none → f a = none
  | .replace _, _ => True

def MemoryEvent.target : MemoryEvent ι α β → ι
  | .deed p _ => p
  | .copy _ c => c

variable [DecidableEq ι] [DecidableEq α]

def MemoryEvent.on : MemoryEvent ι α β → (ι → α → Option β) → ι → α → Option β
  | .deed p d, s => Function.update s p (d.on (s p))
  | .copy p c, s => Function.update s c (s p)

/-- A new owner had no memory before. -/
def MemoryEvent.Fits : MemoryEvent ι α β → (ι → α → Option β) → Prop
  | .deed p d, s => d.Fits (s p)
  | .copy _ c, s => ∀ a, s c a = none

/-- The memories after the events in `log`, of which the last one comes first. -/
def replay (s : ι → α → Option β) : List (MemoryEvent ι α β) → ι → α → Option β
  | [] => s
  | e :: older => e.on (replay s older)

def Lawful (s : ι → α → Option β) : List (MemoryEvent ι α β) → Prop
  | [] => True
  | e :: older => e.Fits (replay s older) ∧ Lawful s older

/-- What happened to the memory of `q`: its own deeds, and from its birth back those of the
owner it was copied from. -/
def deeds : ι → List (MemoryEvent ι α β) → List (Deed α β)
  | _, [] => []
  | q, .deed p d :: older => if p = q then d :: deeds q older else deeds q older
  | q, .copy p c :: older => if c = q then deeds p older else deeds q older

variable {s : ι → α → Option β} {log log' : List (MemoryEvent ι α β)}

theorem MemoryEvent.on_other {e : MemoryEvent ι α β} {q : ι} (other : e.target ≠ q) : e.on s q = s q := by
  cases e with
  | deed p d => exact Function.update_of_ne (Ne.symm other) _ _
  | copy p c => exact Function.update_of_ne (Ne.symm other) _ _

theorem replay_deeds (f : α → Option β) : ∀ (log : List (MemoryEvent ι α β)) (q : ι),
    replay (fun _ => f) log q = (deeds q log).foldr Deed.on f := by
  intro log
  induction log with
  | nil =>
      intro q
      rfl
  | cons e older ih =>
      intro q
      rw [replay]
      cases e with
      | deed p d =>
          by_cases own : p = q
          · subst own
            rw [deeds, if_pos rfl, List.foldr_cons, MemoryEvent.on, Function.update_self, ih]
          · have other : (MemoryEvent.deed p d).target ≠ q := own
            rw [deeds, if_neg own, MemoryEvent.on_other other, ih]
      | copy p c =>
          by_cases own : c = q
          · subst own
            rw [deeds, if_pos rfl, MemoryEvent.on, Function.update_self, ih]
          · have other : (MemoryEvent.copy (α := α) (β := β) p c).target ≠ q := own
            rw [deeds, if_neg own, MemoryEvent.on_other other, ih]

/-- Two owners with the same deeds have the same memory, whoever else did what. -/
theorem replay_eq_of_deeds {f : α → Option β} {q q' : ι} (same : deeds q log = deeds q' log') :
    replay (fun _ => f) log q = replay (fun _ => f) log' q' := by
  rw [replay_deeds, replay_deeds, same]

end Memories

/-! ## Footprints -/

structure Footprints {ι : Type u} {α : Type v} (owners : Set ι) (F : ι → Set α) (taken : Set α) : Prop where
  inside : ∀ p ∈ owners, F p ⊆ taken
  apart : owners.PairwiseDisjoint F

section Footprints

variable {ι : Type u} {α : Type v} {owners owners' : Set ι} {F F' : ι → Set α} {taken taken' : Set α} {n : ι}

theorem Footprints.spared (h : Footprints owners F taken) {W : Set α}
    (writes : ∀ x ∈ W, (n ∈ owners ∧ x ∈ F n) ∨ x ∉ taken) {p : ι} (mem : p ∈ owners) (ne : p ≠ n) :
    ∀ x ∈ F p, x ∉ W := by
  intro x inside written
  rcases writes x written with ⟨own, inOwn⟩ | untaken
  · exact Set.disjoint_left.mp (h.apart mem own ne) inside inOwn
  · exact untaken (h.inside p mem inside)

/-- A step of `n`, which may be new: its footprint grows into places that were not taken. -/
theorem Footprints.step (h : Footprints owners F taken) (more : taken ⊆ taken')
    (members : ∀ p ∈ owners', p = n ∨ p ∈ owners) (others : ∀ p ∈ owners, p ≠ n → F' p = F p)
    (own : ∀ x ∈ F' n, (n ∈ owners ∧ x ∈ F n) ∨ (x ∈ taken' ∧ x ∉ taken)) :
    Footprints owners' F' taken' := by
  have clear : ∀ p ∈ owners, p ≠ n → Disjoint (F' n) (F p) := by
    intro p mem ne
    rw [Set.disjoint_right]
    intro x inOther inOwn
    exact h.spared (W := F' n) (fun y inside => (own y inside).imp_right And.right) mem ne x inOther inOwn
  refine ⟨fun p mem x inside => ?_, fun p memP q memQ ne => ?_⟩
  · by_cases here : p = n
    · subst here
      rcases own x inside with ⟨old, before⟩ | ⟨new, _⟩
      · exact more (h.inside p old before)
      · exact new
    · have old := (members p mem).resolve_left here
      rw [others p old here] at inside
      exact more (h.inside p old inside)
  · by_cases hereP : p = n
    · subst hereP
      have old := (members q memQ).resolve_left (Ne.symm ne)
      have apart := clear q old (Ne.symm ne)
      rw [← others q old (Ne.symm ne)] at apart
      exact apart
    · have oldP := (members p memP).resolve_left hereP
      by_cases hereQ : q = n
      · subst hereQ
        have apart := clear p oldP hereP
        rw [← others p oldP hereP] at apart
        exact apart.symm
      · have oldQ := (members q memQ).resolve_left hereQ
        have apart : Disjoint (F p) (F q) := h.apart oldP oldQ ne
        rw [← others p oldP hereP, ← others q oldQ hereQ] at apart
        exact apart

theorem Footprints.keep (h : Footprints owners F taken) (more : taken ⊆ taken')
    (same : ∀ p ∈ owners, F' p = F p) : Footprints owners F' taken' := by
  refine ⟨fun p mem => ?_, fun p memP q memQ ne => ?_⟩
  · rw [same p mem]
    exact (h.inside p mem).trans more
  · have apart : Disjoint (F p) (F q) := h.apart memP memQ ne
    rw [← same p memP, ← same q memQ] at apart
    exact apart

end Footprints

end Trunix.Lib
