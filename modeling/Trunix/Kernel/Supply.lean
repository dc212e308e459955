import Trunix.Kernel.Image
import Mathlib

/-!
# How many tables a program needs

`alloc_pt` takes a page for every slot of the directory that it finds empty, and faults when
`alloc_pages` has none.  So whether a program can be mapped depends on the number of slots
its pages fall into, and on how many single pages the free list gives out.
-/

set_option autoImplicit false

namespace Trunix

open Trunix.Lib

/-! ## Single pages -/

def takePage (F : List Block) : Option (List Block) :=
  (takeFit 0x1000 F).map fun found => splitRest 0x1000 found.1 found.2

def takePages : Nat → List Block → Option (List Block)
  | 0, F => some F
  | n + 1, F => (takePage F).bind (takePages n)

theorem takePages_add : ∀ (n m : Nat) (F : List Block),
    takePages (n + m) F = (takePages n F).bind (takePages m) := by
  intro n
  induction n with
  | zero => intro m F; rw [Nat.zero_add]; rfl
  | succ n ih =>
      intro m F
      have step : n + 1 + m = n + m + 1 := by omega
      rw [step, takePages, takePages]
      cases takePage F with
      | none => rfl
      | some F' => exact ih m F'

theorem Store.allocPages_page (s : Store) :
    (takePage s.free = none ∧ s.allocPages 0x1000 = (0, s)) ∨
      ∃ F a, takePage s.free = some F ∧
        s.allocPages 0x1000 = (a, { s with free := F, given := ⟨a, 0x1000⟩ :: s.given }) := by
  have size : pgRoundup 0x1000 = 0x1000 := by decide
  cases taken : takeFit 0x1000 s.free with
  | none =>
      refine Or.inl ⟨?_, ?_⟩
      · rw [takePage, taken]
        rfl
      · simp only [Store.allocPages, taken]
  | some found =>
      refine Or.inr ⟨splitRest 0x1000 found.1 found.2, found.1.addr, ?_, ?_⟩
      · rw [takePage, taken]
        rfl
      · simp only [Store.allocPages, taken, size]
        rfl

/-! ## Slots of a directory -/

@[irreducible] def filledSlots (m : Mem) (pd : Nat) : Finset Nat :=
  (Finset.range 512).filter fun i => present m pd i

theorem mem_filledSlots {m : Mem} {pd i : Nat} : i ∈ filledSlots m pd ↔ i < 512 ∧ present m pd i := by
  rw [filledSlots, Finset.mem_filter, Finset.mem_range]

theorem filledSlots_congr {m m' : Mem} {pd : Nat}
    (same : ∀ i < 1024, load32 m' (pd + 4 * i) = load32 m (pd + 4 * i)) :
    filledSlots m' pd = filledSlots m pd := by
  ext i
  rw [mem_filledSlots, mem_filledSlots]
  refine and_congr_right fun lt => ?_
  rw [present, present, same i (by omega)]

theorem filledSlots_union {m m' : Mem} {pd pde : Nat} (lt : pde < 512) (here : present m' pd pde)
    (others : ∀ i < 512, i ≠ pde → (present m' pd i ↔ present m pd i)) :
    filledSlots m' pd = filledSlots m pd ∪ {pde} := by
  ext i
  rw [Finset.mem_union, mem_filledSlots, mem_filledSlots, Finset.mem_singleton]
  by_cases same : i = pde
  · subst same
    exact iff_of_true ⟨lt, here⟩ (Or.inr rfl)
  · simp only [same, or_false]
    exact and_congr_right fun ltI => others i ltI same

theorem card_filled_slot {m : Mem} {pd pde : Nat} (lt : pde < 512) (here : present m pd pde) :
    ({pde} \ filledSlots m pd).card = 0 := by
  have nothing : {pde} \ filledSlots m pd = ∅ := by
    rw [Finset.sdiff_eq_empty_iff_subset, Finset.singleton_subset_iff]
    exact mem_filledSlots.mpr ⟨lt, here⟩
  rw [nothing, Finset.card_empty]

theorem card_empty_slot {m : Mem} {pd pde : Nat} (empty : ¬ present m pd pde) :
    ({pde} \ filledSlots m pd).card = 1 := by
  have all : {pde} \ filledSlots m pd = {pde} := by
    rw [Finset.sdiff_eq_self_iff_disjoint, Finset.disjoint_singleton_left]
    exact fun mem => empty (mem_filledSlots.mp mem).2
  rw [all, Finset.card_singleton]

/-- The computation takes one page for each of the slots that are still empty, and fills
them; when there are too few pages it faults. -/
def Provides {β : Type} (store : β → Store) (pd : Nat) (slots : Finset Nat) (s : Store)
    (x : Except Halt β) : Prop :=
  match takePages (slots \ filledSlots s.mem pd).card s.free with
  | none => x = .error .fault
  | some F => ∃ b, x = .ok b ∧ (store b).free = F ∧
      filledSlots (store b).mem pd = filledSlots s.mem pd ∪ slots

section Provides

variable {β γ : Type} {store : β → Store} {store' : γ → Store} {pd : Nat} {A B : Finset Nat} {s : Store}

theorem card_two_steps (F : Finset Nat) :
    ((A ∪ B) \ F).card = (A \ F).card + (B \ (F ∪ A)).card := by
  have parts : (A ∪ B) \ F = (A \ F) ∪ (B \ (F ∪ A)) := by
    ext i
    simp only [Finset.mem_sdiff, Finset.mem_union]
    tauto
  rw [parts]
  apply Finset.card_union_of_disjoint
  rw [Finset.disjoint_left]
  intro i inA inB
  simp only [Finset.mem_sdiff, Finset.mem_union] at inA inB
  tauto

theorem Provides.bind {x : Except Halt β} {f : β → Except Halt γ} (h : Provides store pd A s x)
    (next : ∀ b, x = .ok b → Provides store' pd B (store b) (f b)) :
    Provides store' pd (A ∪ B) s (x >>= f) := by
  rw [Provides] at h ⊢
  rw [card_two_steps, takePages_add]
  cases first : takePages (A \ filledSlots s.mem pd).card s.free with
  | none =>
      rw [first] at h
      rw [h]
      rfl
  | some F =>
      rw [first] at h
      obtain ⟨b, done, free, filled⟩ := h
      have later := next b done
      rw [Provides, free, filled] at later
      rw [done, ok_bind, Option.bind_some]
      cases second : takePages (B \ (filledSlots s.mem pd ∪ A)).card F with
      | none =>
          rw [second] at later
          exact later
      | some F' =>
          rw [second] at later
          obtain ⟨c, done', free', filled'⟩ := later
          exact ⟨c, done', free', by rw [filled', Finset.union_assoc]⟩

theorem Provides.none {x : Except Halt β} {b : β} (done : x = .ok b) (free : (store b).free = s.free)
    (filled : filledSlots (store b).mem pd = filledSlots s.mem pd) : Provides store pd ∅ s x := by
  rw [Provides, Finset.empty_sdiff, Finset.card_empty]
  exact ⟨b, done, free, by rw [filled, Finset.union_empty]⟩

end Provides

/-! ## `alloc_pt` -/

section Tables

variable {init : List Block} {pd pde : Nat} {s : Store}

theorem tableFor_provides (sound : s.Sound init) (dir : PageDir s pd) (lt : pde < 512) :
    Provides Prod.snd pd {pde} s (tableFor pd pde userFlags s) := by
  have filled : ∀ pt s', TableReady init pd pde pt s s' →
      filledSlots s'.mem pd = filledSlots s.mem pd ∪ {pde} := by
    intro pt s' ready
    refine filledSlots_union lt ready.here fun i ltI other => ?_
    rw [present, present, ready.others i ltI (Or.inr other)]
  rw [Provides]
  by_cases here : present s.mem pd pde
  · have odd : ¬ load32 s.mem (pd + 4 * pde) % 2 = 0 := by
      rw [present] at here
      omega
    rw [card_filled_slot lt here]
    have done : tableFor pd pde userFlags s = .ok (p2v (frameOf (load32 s.mem (pd + 4 * pde))),
        { s with mem := store32 s.mem (pd + 4 * pde) (load32 s.mem (pd + 4 * pde) ||| userFlags) }) := by
      rw [tableFor]
      exact if_neg odd
    exact ⟨_, done, rfl, filled _ _ (tableFor_ready sound dir lt done)⟩
  · have even : load32 s.mem (pd + 4 * pde) % 2 = 0 := by
      rw [present] at here
      omega
    rw [card_empty_slot here, takePages]
    rcases s.allocPages_page with ⟨none, call⟩ | ⟨F, a, some, call⟩
    · rw [none]
      simp only [tableFor, if_pos even, call]
      rfl
    · rw [some]
      have alloc := sound.alloc 0x1000
      rw [call] at alloc
      have high : ¬ (4 * 1024 ≠ 0 ∧ a < 0x1000) := by
        generalize result : (a, ({ s with free := F, given := ⟨a, 0x1000⟩ :: s.given } : Store)) = r at alloc
        cases alloc with
        | none small =>
            have same := congrArg (fun r => r.2.given.length) result
            simp at same
        | zero b free nothing => cases nothing
        | some b free pos fits sound₁ =>
            have paged := sound₁.paged List.mem_cons_self
            simp only at paged
            have same : a = b := congrArg Prod.fst result
            omega
      have done : tableFor pd pde userFlags s = .ok (a, { s with
          mem := store32 (fill s.mem a (4 * 1024) 0) (pd + 4 * pde) (frameOf (v2p a) ||| userFlags)
          free := F
          given := ⟨a, 0x1000⟩ :: s.given }) := by
        simp only [tableFor, if_pos even, call, Store.memset, touch, if_neg high, ok_bind]
        rfl
      exact ⟨_, done, rfl, filled _ _ (tableFor_ready sound dir lt done)⟩

theorem mapPage_provides {va pa : Nat} (sound : s.Sound init) (dir : PageDir s pd)
    (user : va < 0x80000000) :
    Provides id pd {va / 0x400000} s (mapPage pd va pa userFlags s) := by
  have slot : va / 0x400000 < 512 := by omega
  have first := tableFor_provides sound dir slot
  rw [mapPage, ← Finset.union_empty {va / 0x400000}]
  refine first.bind fun r found => ?_
  obtain ⟨pt, s₁⟩ := r
  have ready := tableFor_ready sound dir slot found
  obtain ⟨memPt, ptNe⟩ := ready.mapping.dir.tables _ slot ready.here
  rw [ready.isTable] at memPt ptNe
  have apart := ready.mapping.sound.pages_apart memPt ready.mapping.dir.own ptNe
  refine Provides.none rfl rfl (filledSlots_congr fun i lt => ?_)
  simp only [id]
  apply load32_store32_of_apart
  omega

end Tables

def slotsFrom (n va : Nat) : Finset Nat := (Finset.range n).image fun i => (va + 0x1000 * i) / 0x400000

theorem slotsFrom_succ (n va : Nat) :
    slotsFrom (n + 1) va = {va / 0x400000} ∪ slotsFrom n (va + 0x1000) := by
  ext i
  simp only [slotsFrom, Finset.mem_union, Finset.mem_singleton, Finset.mem_image, Finset.mem_range]
  constructor
  · rintro ⟨j, lt, rfl⟩
    cases j with
    | zero => exact Or.inl (by rw [Nat.mul_zero, Nat.add_zero])
    | succ j => exact Or.inr ⟨j, by omega, by congr 1; omega⟩
  · rintro (rfl | ⟨j, lt, rfl⟩)
    · exact ⟨0, by omega, by rw [Nat.mul_zero, Nat.add_zero]⟩
    · exact ⟨j + 1, by omega, by congr 1; omega⟩

theorem mapPages_provides {init : List Block} {pd : Nat} : ∀ (n va pa : Nat) (s : Store),
    s.Sound init → PageDir s pd → pa < 0x100000000 → va + n * 0x1000 ≤ 0x80000000 →
    Provides id pd (slotsFrom n va) s (mapPages pd userFlags n va pa s) := by
  intro n
  induction n with
  | zero => intro va pa s _ _ _ _; exact Provides.none rfl rfl rfl
  | succ n ih =>
      intro va pa s sound dir bound user
      rw [mapPages, slotsFrom_succ]
      refine (mapPage_provides sound dir (by omega)).bind fun s₁ done => ?_
      obtain ⟨mapping, _⟩ := mapPage_spec sound dir (by omega) bound done
      rw [u32_of_lt (show va + 0x1000 < 0x100000000 by omega)]
      exact ih (va + 0x1000) _ s₁ mapping.sound mapping.dir (u32_lt _) (by omega)

def tableSlots (va len : Nat) : Finset Nat := slotsFrom (pgRoundup len / 0x1000) (pgRounddown va)

theorem allocPt_provides {init : List Block} {pd va pa len : Nat} {s : Store} (sound : s.Sound init)
    (dir : PageDir s pd) (bound : pa < 0x100000000)
    (user : len = 0 ∨ pgRounddown va + pgRoundup len ≤ 0x80000000) :
    Provides id pd (tableSlots va len) s (allocPt pd va pa len userFlags s) := by
  rcases user with none | below
  · subst none
    exact Provides.none rfl rfl rfl
  · have whole := pgRoundup_mod len
    have lower := pgRounddown_eq pa
    exact mapPages_provides _ _ _ s sound dir (by omega) (by omega)

/-! ## The second pass -/

def segmentSlots : List Proghdr → Finset Nat
  | [] => ∅
  | ph :: rest => tableSlots ph.va ph.len ∪ segmentSlots rest

theorem loadHdrs_provides {init : List Block} {m : Mem} {bin pd blk sz : Nat} :
    ∀ (segs : List Proghdr) (off : Nat) (regions : List VmRegion) (s : Store),
    Loadable init pd blk sz s → CopiesFit sz segs off → UserPages segs → (∀ ph ∈ segs, ph.type = 1) →
    Provides Pass.store pd (segmentSlots segs) s
      (loadHdrs m bin pd segs (u32 (blk + off)) regions s) := by
  intro segs
  induction segs with
  | nil => intro off regions s _ _ _ _; exact Provides.none rfl rfl rfl
  | cons ph rest ih =>
      intro off regions s loadable fits user types
      have written := loadable.copy fits.1 (fun i => m (u32 (bin + ph.off) + i))
      have inMemory : ¬ (ph.filesz ≠ 0 ∧ u32 (u32 (blk + off) + ph.va % 0x1000) < 0x1000) := by
        rintro ⟨some, low⟩
        have room := fits.1.resolve_left some
        have paged := loadable.sound.paged (loadable.own.resolve_left (by omega))
        simp only at paged
        rw [u32_add, u32_of_lt (by omega)] at low
        omega
      have moved : s.memmove (u32 (u32 (blk + off) + ph.va % 0x1000))
          (fun i => m (u32 (bin + ph.off) + i)) ph.filesz = .ok { s with
            mem := blit s.mem (u32 (u32 (blk + off) + ph.va % 0x1000)) ph.filesz
              (fun i => m (u32 (bin + ph.off) + i)) } := by
        simp only [Store.memmove, touch, if_neg inMemory, ok_bind]
        rfl
      have kept : filledSlots (blit s.mem (u32 (u32 (blk + off) + ph.va % 0x1000)) ph.filesz
          (fun i => m (u32 (bin + ph.off) + i))) pd = filledSlots s.mem pd := by
        have frame := loadable.copy_frame fits.1 (fun i => m (u32 (bin + ph.off) + i))
        apply filledSlots_congr
        intro i lt
        apply frame.load32_eq
        intro x lo hi
        refine loadable.clear x (Or.inl ?_)
        simp only [page, Set.mem_Ico]
        omega
      have copy : Provides id pd ∅ s (s.memmove (u32 (u32 (blk + off) + ph.va % 0x1000))
          (fun i => m (u32 (bin + ph.off) + i)) ph.filesz) := Provides.none moved rfl kept
      rw [segmentSlots, ← Finset.empty_union (tableSlots ph.va ph.len ∪ segmentSlots rest)]
      simp only [loadHdrs, if_pos (types ph List.mem_cons_self)]
      refine copy.bind fun s₁ done => ?_
      rw [moved] at done
      cases done
      refine (allocPt_provides written.sound written.dir (v2p_lt _)
        (user.range List.mem_cons_self)).bind fun s₂ linked => ?_
      have mapping := allocPt_mapping written.sound written.dir
        (user.range List.mem_cons_self) linked
      have filled := written.trans mapping.filling
      rw [next_place]
      exact ih _ _ s₂ (filled.loadable loadable) fits.2
        (fun other mem => user other (List.mem_cons_of_mem _ mem))
        (fun other mem => types other (List.mem_cons_of_mem _ mem))

end Trunix
