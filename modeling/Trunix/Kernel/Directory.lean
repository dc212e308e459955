import Trunix.Kernel.Cleared
import Trunix.Kernel.Supply

/-!
# `alloc_pt` on any directory

The theorems on `alloc_pt` for the directories of processes assume tables that
`alloc_pages` handed out and the flags of a user page.  Here the tables only have to be
told apart, from each other, from the directory and from free memory, and the flags are
any that contain `PG_P` and neither `PG_PSE` nor a bit of the frame.
-/

set_option autoImplicit false

namespace Trunix

open Trunix.Lib

/-! ## Flags -/

/-- `PG_P` without `PG_PSE`, below the bits of the frame. -/
structure TableFlags (flags : Nat) : Prop where
  present : flags % 2 = 1
  small : flags / 0x80 % 2 = 0
  low : flags < 0x1000

section Flags

variable {flags e : Nat}

theorem TableFlags.frame_or (h : TableFlags flags) (bound : e < 0x100000000) :
    frameOf e ||| flags = e / 0x1000 * 0x1000 + flags := by
  rw [frameOf_eq bound, Nat.mul_comm]
  exact (Nat.two_pow_add_eq_or_of_lt (i := 12) h.low _).symm

theorem or_word (bound : e < 0x100000000) (low : flags < 0x1000) : e ||| flags < 0x100000000 :=
  Nat.or_lt_two_pow (n := 32) bound (by omega)

theorem TableFlags.entry_or (h : TableFlags flags) (bound : e < 0x100000000) (single : e / 0x80 % 2 = 0) :
    (e ||| flags) % 2 = 1 ∧ (e ||| flags) / 0x80 % 2 = 0 ∧ frameOf (e ||| flags) = frameOf e := by
  refine ⟨?_, ?_, ?_⟩
  · have bit : (e ||| flags) % 2 = e % 2 ||| flags % 2 := Nat.or_mod_two_pow (n := 1)
    rw [bit, h.present]
    have cases : e % 2 = 0 ∨ e % 2 = 1 := by omega
    rcases cases with even | odd
    · rw [even]
      rfl
    · rw [odd]
      rfl
  · have shift : (e ||| flags) / 0x80 = e / 0x80 ||| flags / 0x80 := Nat.or_div_two_pow (n := 7)
    have bit : (e / 0x80 ||| flags / 0x80) % 2 = e / 0x80 % 2 ||| flags / 0x80 % 2 :=
      Nat.or_mod_two_pow (n := 1)
    rw [shift, bit, single, h.small]
    rfl
  · have low := h.low
    have none : flags / 0x1000 = 0 := by omega
    have shift : (e ||| flags) / 0x1000 = e / 0x1000 ||| flags / 0x1000 := Nat.or_div_two_pow (n := 12)
    rw [frameOf_eq (or_word bound h.low), frameOf_eq bound, shift, none, Nat.or_zero]

theorem or_grants (e flags : Nat) : (e ||| flags) &&& flags = flags := by
  apply Nat.eq_of_testBit_eq
  intro i
  rw [Nat.testBit_and, Nat.testBit_or]
  cases e.testBit i <;> cases flags.testBit i <;> rfl

end Flags

/-! ## The walk by its entries -/

def big (m : Mem) (pd i : Nat) : Prop := load32 m (pd + 4 * i) / 0x80 % 2 = 1

def pageEntry (m : Mem) (pd va : Nat) : Nat :=
  load32 m (table m pd (va / 0x400000) + 4 * (va / 0x1000 % 0x400))

theorem table_aligned (m : Mem) (pd i : Nat) : table m pd i % 0x1000 = 0 := by
  have bound := load32_lt m (pd + 4 * i)
  have whole := frameOf_eq bound
  by_cases low : frameOf (load32 m (pd + 4 * i)) < 0x80000000
  · rw [table, p2v_of_lt low]
    omega
  · rw [table, p2v_of_ge (by omega) (by omega)]
    omega

theorem walk_table {m : Mem} {pd va : Nat} (here : present m pd (va / 0x400000))
    (single : ¬ big m pd (va / 0x400000)) :
    walk m pd va =
      if pageEntry m pd va % 2 = 0 then none else some (frameOf (pageEntry m pd va) + va % 0x1000) := by
  have odd : ¬ load32 m (pd + 4 * (va / 0x400000)) % 2 = 0 := by
    rw [present] at here
    omega
  rw [big] at single
  simp only [walk, if_neg odd, if_neg single]
  rfl

theorem walk_absent {m : Mem} {pd va : Nat} (empty : ¬ present m pd (va / 0x400000)) :
    walk m pd va = none := by
  have even : load32 m (pd + 4 * (va / 0x400000)) % 2 = 0 := by
    rw [present] at empty
    omega
  simp only [walk, if_pos even]

theorem walk_big {m : Mem} {pd va : Nat} (here : present m pd (va / 0x400000))
    (whole : big m pd (va / 0x400000)) :
    walk m pd va = some (load32 m (pd + 4 * (va / 0x400000)) / 0x400000 * 0x400000 + va % 0x400000) := by
  have odd : ¬ load32 m (pd + 4 * (va / 0x400000)) % 2 = 0 := by
    rw [present] at here
    omega
  rw [big] at whole
  simp only [walk, if_neg odd, if_pos whole]

/-- What a walk depends on in slot `i`: the whole entry where it maps 4 MiB, and no more than
the place of the table where it has one. -/
structure SameSlot (m m' : Mem) (pd i : Nat) : Prop where
  present : present m' pd i ↔ Trunix.present m pd i
  big : big m' pd i ↔ Trunix.big m pd i
  table : table m' pd i = Trunix.table m pd i
  whole : Trunix.big m pd i → load32 m' (pd + 4 * i) = load32 m (pd + 4 * i)

theorem SameSlot.of_load {m m' : Mem} {pd i : Nat} (same : load32 m' (pd + 4 * i) = load32 m (pd + 4 * i)) :
    SameSlot m m' pd i := by
  refine ⟨?_, ?_, ?_, fun _ => same⟩
  · rw [Trunix.present, Trunix.present, same]
  · rw [Trunix.big, Trunix.big, same]
  · rw [Trunix.table, Trunix.table, same]

theorem SameSlot.walk_eq {m m' : Mem} {pd va : Nat} (slot : SameSlot m m' pd (va / 0x400000))
    (entry : Trunix.present m pd (va / 0x400000) → ¬ Trunix.big m pd (va / 0x400000) →
      pageEntry m' pd va = pageEntry m pd va) : walk m' pd va = walk m pd va := by
  by_cases here : Trunix.present m pd (va / 0x400000)
  · have here' := slot.present.mpr here
    by_cases whole : Trunix.big m pd (va / 0x400000)
    · rw [walk_big here whole, walk_big here' (slot.big.mpr whole), slot.whole whole]
    · rw [walk_table here whole, walk_table here' (fun now => whole (slot.big.mp now)), entry here whole]
  · rw [walk_absent here, walk_absent fun now => here (slot.present.mp now)]

/-! ## Directories -/

/-- The tables of a directory are told apart.  Entries of the kernel half that map 4 MiB
have no table. -/
structure TableDir (s : Store) (pd : Nat) : Prop where
  aligned : pd % 0x1000 = 0
  own : ∀ x ∈ page pd, Outside s.free x
  single : ∀ i < 512, present s.mem pd i → ¬ big s.mem pd i
  apart : ∀ i < 1024, present s.mem pd i → ¬ big s.mem pd i → table s.mem pd i ≠ pd
  held : ∀ i < 1024, present s.mem pd i → ¬ big s.mem pd i →
    ∀ x ∈ page (table s.mem pd i), Outside s.free x
  distinct : ∀ i < 512, ∀ j < 1024, i ≠ j → present s.mem pd i → present s.mem pd j →
    ¬ big s.mem pd j → table s.mem pd i ≠ table s.mem pd j

theorem PageDir.tableDir {init : List Block} {s : Store} {pd : Nat} (sound : s.Sound init)
    (dir : PageDir s pd) (kernel : ∀ i, 512 ≤ i → i < 1024 → present s.mem pd i → big s.mem pd i) :
    TableDir s pd := by
  have user : ∀ i < 1024, present s.mem pd i → ¬ big s.mem pd i → i < 512 := by
    intro i lt here single
    by_contra high
    exact single (kernel i (by omega) lt here)
  refine ⟨(sound.paged dir.own).1, fun x mem => sound.given_not_free dir.own mem, fun i lt here => ?_,
    fun i lt here single => (dir.tables i (user i lt here single) here).2,
    fun i lt here single x mem => sound.given_not_free (dir.tables i (user i lt here single) here).1 mem,
    fun i ltI j ltJ ne nowI nowJ single => dir.distinct i ltI j (user j ltJ nowJ single) ne nowI nowJ⟩
  have flags := dir.flags i lt here
  rw [big]
  omega

theorem pages_apart {a b : Nat} (alignedA : a % 0x1000 = 0) (alignedB : b % 0x1000 = 0) (ne : a ≠ b) :
    a + 0x1000 ≤ b ∨ b + 0x1000 ≤ a := by
  omega

theorem TableDir.table_apart {s : Store} {pd i : Nat} (h : TableDir s pd) (lt : i < 1024)
    (here : present s.mem pd i) (single : ¬ big s.mem pd i) :
    table s.mem pd i + 0x1000 ≤ pd ∨ pd + 0x1000 ≤ table s.mem pd i :=
  pages_apart (table_aligned _ _ _) h.aligned (h.apart i lt here single)

/-- The right to `flags` on the page of `va`: the entry of the page has exactly these, the
entry of its table at least these. -/
def Granted (m : Mem) (pd va flags : Nat) : Prop :=
  pageEntry m pd va % 0x1000 = flags ∧ load32 m (pd + 4 * (va / 0x400000)) &&& flags = flags

theorem TableDir.of_same {s s' : Store} {pd : Nat} (h : TableDir s pd)
    (slots : ∀ i < 1024, SameSlot s.mem s'.mem pd i)
    (outside : ∀ x, Outside s.free x → Outside s'.free x) : TableDir s' pd := by
  refine ⟨h.aligned, fun x mem => outside x (h.own x mem), fun i lt now => ?_, fun i lt now single => ?_,
    fun i lt now single => ?_, fun i ltI j ltJ ne nowI nowJ single => ?_⟩
  · rw [(slots i (by omega)).big]
    exact h.single i lt ((slots i (by omega)).present.mp now)
  · rw [(slots i lt).big] at single
    rw [(slots i lt).table]
    exact h.apart i lt ((slots i lt).present.mp now) single
  · rw [(slots i lt).big] at single
    rw [(slots i lt).table]
    exact fun x mem => outside x (h.held i lt ((slots i lt).present.mp now) single x mem)
  · rw [(slots j ltJ).big] at single
    rw [(slots i (by omega)).table, (slots j ltJ).table]
    exact h.distinct i ltI j ltJ ne ((slots i (by omega)).present.mp nowI)
      ((slots j ltJ).present.mp nowJ) single

structure Rounds (init : List Block) (pd flags : Nat) (W : Set Nat) (s s' : Store) : Prop where
  sound : s'.Sound init
  dir : TableDir s' pd
  outside : ∀ x, Outside s.free x → Outside s'.free x
  keeps : ∀ i < 512, present s.mem pd i → present s'.mem pd i
  walks : ∀ x < 0x100000000, x ∉ W → walk s'.mem pd x = walk s.mem pd x
  grants : ∀ x < 0x80000000, x ∉ W → present s.mem pd (x / 0x400000) →
    Granted s.mem pd x flags → Granted s'.mem pd x flags

section Rounds

variable {init : List Block} {pd flags pde : Nat} {V W : Set Nat} {s s₁ s₂ : Store}

theorem Rounds.refl (sound : s.Sound init) (dir : TableDir s pd) : Rounds init pd flags W s s :=
  ⟨sound, dir, fun _ out => out, fun _ _ here => here, fun _ _ _ => rfl, fun _ _ _ _ granted => granted⟩

theorem Rounds.mono (h : Rounds init pd flags V s s₁) (sub : V ⊆ W) : Rounds init pd flags W s s₁ :=
  ⟨h.sound, h.dir, h.outside, h.keeps, fun x lt out => h.walks x lt fun mem => out (sub mem),
    fun x lt out => h.grants x lt fun mem => out (sub mem)⟩

theorem Rounds.trans (h : Rounds init pd flags W s s₁) (h' : Rounds init pd flags W s₁ s₂) :
    Rounds init pd flags W s s₂ := by
  refine ⟨h'.sound, h'.dir, fun x out => h'.outside x (h.outside x out),
    fun i lt here => h'.keeps i lt (h.keeps i lt here),
    fun x lt out => (h'.walks x lt out).trans (h.walks x lt out), fun x lt out here granted => ?_⟩
  exact h'.grants x lt out (h.keeps _ (by omega) here) (h.grants x lt out here granted)

/-! ## The table of a slot -/

structure Opened (init : List Block) (pd flags pde pt : Nat) (s s₁ : Store) : Prop where
  rounds : Rounds init pd flags ∅ s s₁
  here : present s₁.mem pd pde
  isTable : table s₁.mem pd pde = pt
  grant : load32 s₁.mem (pd + 4 * pde) &&& flags = flags
  filled : filledSlots s₁.mem pd = filledSlots s.mem pd ∪ {pde}

theorem load_slot (m : Mem) (pd i j v : Nat) (word : v < 0x100000000) :
    load32 (store32 m (pd + 4 * i) v) (pd + 4 * j) = if j = i then v else load32 m (pd + 4 * j) := by
  by_cases same : j = i
  · rw [if_pos same, same, load32_store32_same, Nat.mod_eq_of_lt word]
  · rw [if_neg same]
    exact load32_store32_of_apart m (by omega)

theorem TableDir.opened_filled (sound : s.Sound init) (dir : TableDir s pd) (ok : TableFlags flags)
    (lt : pde < 512) (here : present s.mem pd pde) :
    Opened init pd flags pde (table s.mem pd pde) s { s with
      mem := store32 s.mem (pd + 4 * pde) (load32 s.mem (pd + 4 * pde) ||| flags) } := by
  generalize entry : load32 s.mem (pd + 4 * pde) = e
  have bound : e < 0x100000000 := entry ▸ load32_lt _ _
  have small : e / 0x80 % 2 = 0 := by
    have single := dir.single pde lt here
    rw [big, entry] at single
    omega
  obtain ⟨odd, single, frame⟩ := ok.entry_or bound small
  have word := or_word bound ok.low
  let m := store32 s.mem (pd + 4 * pde) (e ||| flags)
  have loads : ∀ j, load32 m (pd + 4 * j) = if j = pde then e ||| flags else load32 s.mem (pd + 4 * j) :=
    fun j => load_slot s.mem pd pde j _ word
  have slots : ∀ i < 1024, SameSlot s.mem m pd i := by
    intro i _
    by_cases same : i = pde
    · subst same
      have now : load32 m (pd + 4 * i) = e ||| flags := by rw [loads, if_pos rfl]
      have notBig : ¬ big s.mem pd i := dir.single i lt here
      refine ⟨iff_of_true ?_ here, iff_of_false ?_ notBig, ?_, fun whole => absurd whole notBig⟩
      · rw [present, now]
        exact odd
      · rw [big, now]
        omega
      · rw [table, table, now, frame, entry]
    · exact .of_load (by rw [loads, if_neg same])
  have touched : Frame s.mem m (page pd) := by
    refine (store32_frame s.mem _ _).mono fun x mem => ?_
    simp only [page, Set.mem_Ico] at mem ⊢
    omega
  have entries : ∀ x < 0x100000000, present s.mem pd (x / 0x400000) → ¬ big s.mem pd (x / 0x400000) →
      pageEntry m pd x = pageEntry s.mem pd x := by
    intro x ltX now notBig
    have apart := dir.table_apart (by omega) now notBig
    rw [pageEntry, pageEntry, (slots _ (by omega)).table]
    apply touched.load32_eq
    intro y lo hi mem
    simp only [page, Set.mem_Ico] at mem
    omega
  have grant : load32 m (pd + 4 * pde) &&& flags = flags := by
    rw [loads, if_pos rfl]
    exact or_grants e flags
  refine ⟨⟨sound.write rfl rfl, dir.of_same slots fun _ out => out, fun _ out => out,
    fun i ltI now => (slots i (by omega)).present.mpr now,
    fun x ltX _ => (slots _ (by omega)).walk_eq (entries x ltX), fun x ltX _ now granted => ?_⟩,
    (slots pde (by omega)).present.mpr here, (slots pde (by omega)).table, grant, ?_⟩
  · have notBig := dir.single _ (show x / 0x400000 < 512 by omega) now
    refine ⟨(congrArg (· % 0x1000) (entries x (by omega) now notBig)).trans granted.1, ?_⟩
    by_cases same : x / 0x400000 = pde
    · rw [same]
      exact grant
    · have unchanged := loads (x / 0x400000)
      rw [if_neg same] at unchanged
      exact (congrArg (· &&& flags) unchanged).trans granted.2
  · exact filledSlots_union lt ((slots pde (by omega)).present.mpr here) fun i ltI _ =>
      (slots i (by omega)).present

theorem TableDir.opened_fresh {a : Nat} (dir : TableDir s pd) (ok : TableFlags flags) (lt : pde < 512)
    (empty : ¬ present s.mem pd pde) (fresh : s.Cleared init a 0x1000 s₁) :
    Opened init pd flags pde a s { s₁ with
      mem := store32 s₁.mem (pd + 4 * pde) (frameOf (v2p a) ||| flags) } := by
  obtain ⟨alignedA, _, _, high, top⟩ := fresh.paged
  have physical := v2p_eq a
  have entry : frameOf (v2p a) ||| flags = v2p a + flags := by
    rw [ok.frame_or (v2p_lt a)]
    omega
  obtain ⟨odd, small, low⟩ := ok
  generalize written : frameOf (v2p a) ||| flags = e at entry ⊢
  have grantE : e &&& flags = flags := by
    rw [← written]
    exact or_grants _ _
  let m := store32 s₁.mem (pd + 4 * pde) e
  -- the directory and the tables lie outside the new page
  have apartPd : pd + 0x1000 ≤ a ∨ a + 0x1000 ≤ pd := by
    refine pages_apart dir.aligned alignedA fun same => ?_
    exact fresh.taken_free (dir.own pd (by simp [page])) (by omega)
  have apartTable : ∀ i < 1024, present s.mem pd i → ¬ big s.mem pd i → table s.mem pd i ≠ a := by
    intro i ltI now notBig same
    exact fresh.taken_free (dir.held i ltI now notBig _ (show a ∈ page _ by simp [page, same])) (by omega)
  have touched : Frame s.mem m (page pd ∪ page a) := by
    refine (fresh.frame.mono ?_).trans ((store32_frame s₁.mem _ _).mono ?_)
    · exact Set.subset_union_right
    · intro x mem
      left
      simp only [page, Set.mem_Ico] at mem ⊢
      omega
  have loads : ∀ j < 1024, load32 m (pd + 4 * j) = if j = pde then e else load32 s.mem (pd + 4 * j) := by
    intro j ltJ
    rw [load_slot s₁.mem pd pde j e (by omega)]
    have same : load32 s₁.mem (pd + 4 * j) = load32 s.mem (pd + 4 * j) := by
      apply fresh.frame.load32_eq
      intro x lo hi mem
      simp only [Set.mem_Ico] at mem
      omega
    rw [same]
  have others : ∀ i < 1024, i ≠ pde → SameSlot s.mem m pd i := fun i ltI ne =>
    .of_load (by rw [loads i ltI, if_neg ne])
  have now : load32 m (pd + 4 * pde) = e := by rw [loads pde (by omega), if_pos rfl]
  have here : present m pd pde := by
    rw [present, now]
    omega
  have notBig : ¬ big m pd pde := by
    rw [big, now]
    omega
  have isTable : table m pd pde = a := by
    rw [table, now, frameOf_eq (by omega)]
    have frame : e / 0x1000 * 0x1000 = v2p a := by omega
    rw [frame]
    exact p2v_v2p high (by omega)
  have entries : ∀ x < 0x100000000, present s.mem pd (x / 0x400000) → ¬ big s.mem pd (x / 0x400000) →
      pageEntry m pd x = pageEntry s.mem pd x := by
    intro x ltX before single
    have ne : x / 0x400000 ≠ pde := fun same => empty (same ▸ before)
    have apart := dir.table_apart (by omega) before single
    have apartA := pages_apart (table_aligned _ _ _) alignedA (apartTable _ (by omega) before single)
    rw [pageEntry, pageEntry, (others _ (by omega) ne).table]
    apply touched.load32_eq
    intro y lo hi mem
    simp only [page, Set.mem_union, Set.mem_Ico] at mem
    omega
  have presents : ∀ i < 512, i ≠ pde → (present m pd i ↔ present s.mem pd i) := fun i ltI ne =>
    (others i (by omega) ne).present
  have zero : ∀ x ∈ page a, m x = 0 := by
    intro x mem
    have out : x ∉ Set.Ico (pd + 4 * pde) (pd + 4 * pde + 4) := by
      simp only [page, Set.mem_Ico] at mem ⊢
      omega
    exact (store32_frame s₁.mem _ _ x out).trans (fresh.zero x mem)
  have held : ∀ x ∈ page a, Outside s₁.free x := by
    intro x mem
    have own : (⟨a, 0x1000⟩ : Block) ∈ s₁.given := fresh.given ▸ List.mem_cons_self
    exact fresh.sound.given_not_free own mem
  refine ⟨⟨fresh.sound.write rfl rfl, ⟨dir.aligned, fun x mem => fresh.outside (dir.own x mem), ?_, ?_, ?_,
    ?_⟩, fun x out => fresh.outside out, fun i ltI before => ?_, fun x ltX _ => ?_,
    fun x ltX _ before granted => ?_⟩, here, isTable, (by rw [now]; exact grantE),
    filledSlots_union lt here presents⟩
  · intro i ltI
    by_cases same : i = pde
    · rw [same]
      exact fun _ => notBig
    · intro before
      rw [(others i (by omega) same).big]
      exact dir.single i ltI ((presents i ltI same).mp before)
  · intro i ltI nowI single
    by_cases same : i = pde
    · rw [same, isTable]
      omega
    · have slot := others i ltI same
      rw [slot.table]
      exact dir.apart i ltI (slot.present.mp nowI) fun whole => single (slot.big.mpr whole)
  · intro i ltI nowI single
    by_cases same : i = pde
    · rw [same, isTable]
      exact held
    · have slot := others i ltI same
      rw [slot.table]
      exact fun x mem => fresh.outside (dir.held i ltI (slot.present.mp nowI)
        (fun whole => single (slot.big.mpr whole)) x mem)
  · intro i ltI j ltJ ne nowI nowJ single
    by_cases sameI : i = pde
    · have neJ : j ≠ pde := fun same => ne (sameI.trans same.symm)
      have slot := others j ltJ neJ
      rw [sameI, isTable, slot.table]
      exact (apartTable j ltJ (slot.present.mp nowJ) fun whole => single (slot.big.mpr whole)).symm
    · have slotI := others i (by omega) sameI
      by_cases sameJ : j = pde
      · rw [sameJ, isTable, slotI.table]
        exact apartTable i (by omega) (slotI.present.mp nowI)
          (dir.single i ltI (slotI.present.mp nowI))
      · have slotJ := others j ltJ sameJ
        rw [slotI.table, slotJ.table]
        exact dir.distinct i ltI j ltJ ne (slotI.present.mp nowI) (slotJ.present.mp nowJ)
          fun whole => single (slotJ.big.mpr whole)
  · by_cases same : i = pde
    · exact absurd (same ▸ before) empty
    · exact (presents i ltI same).mpr before
  · by_cases same : x / 0x400000 = pde
    · have none : pageEntry m pd x = 0 := by
        rw [pageEntry, same, isTable]
        exact bytes_of_page_zero zero (by omega)
      have after : walk m pd x = Option.none := by
        rw [walk_table (by rw [same]; exact here) (by rw [same]; exact notBig), none]
        rfl
      exact after.trans (walk_absent (by rw [same]; exact empty)).symm
    · exact (others _ (by omega) same).walk_eq (entries x ltX)
  · have ne : x / 0x400000 ≠ pde := fun same => empty (same ▸ before)
    have single := dir.single _ (show x / 0x400000 < 512 by omega) before
    refine ⟨(congrArg (· % 0x1000) (entries x (by omega) before single)).trans granted.1, ?_⟩
    have unchanged := loads (x / 0x400000) (by omega)
    rw [if_neg ne] at unchanged
    exact (congrArg (· &&& flags) unchanged).trans granted.2

/-- What `tableFor` does: it finds the table, or takes a page for it. -/
theorem tableFor_opened {pt : Nat} (sound : s.Sound init) (dir : TableDir s pd) (ok : TableFlags flags)
    (lt : pde < 512) (done : tableFor pd pde flags s = .ok (pt, s₁)) : Opened init pd flags pde pt s s₁ := by
  by_cases here : present s.mem pd pde
  · have odd : ¬ load32 s.mem (pd + 4 * pde) % 2 = 0 := by
      rw [present] at here
      omega
    rw [tableFor] at done
    simp only [if_neg odd] at done
    cases done
    exact dir.opened_filled sound ok lt here
  · have even : load32 s.mem (pd + 4 * pde) % 2 = 0 := by
      rw [present] at here
      omega
    have bytes : 4 * 1024 = 0x1000 := rfl
    rw [tableFor] at done
    simp only [if_pos even, bytes] at done
    obtain ⟨s₂, cleared, result⟩ := bind_eq_ok.mp done
    obtain ⟨a, s₃, call, cleared', fresh⟩ := sound.cleared (r := 0x1000) rfl (by decide)
      (Store.fits_of_memset (by decide) cleared)
    rw [call] at cleared result
    rw [cleared'] at cleared
    cases cleared
    cases result
    exact dir.opened_fresh ok lt here fresh

theorem tableFor_supplied (sound : s.Sound init) (dir : TableDir s pd) (ok : TableFlags flags)
    (lt : pde < 512) : Provides Prod.snd pd {pde} s (tableFor pd pde flags s) := by
  have filled : ∀ pt s₁, tableFor pd pde flags s = .ok (pt, s₁) →
      filledSlots s₁.mem pd = filledSlots s.mem pd ∪ {pde} := fun pt s₁ done =>
    (tableFor_opened sound dir ok lt done).filled
  rw [Provides]
  by_cases here : present s.mem pd pde
  · have odd : ¬ load32 s.mem (pd + 4 * pde) % 2 = 0 := by
      rw [present] at here
      omega
    have done : tableFor pd pde flags s = .ok (table s.mem pd pde,
        { s with mem := store32 s.mem (pd + 4 * pde) (load32 s.mem (pd + 4 * pde) ||| flags) }) := by
      rw [tableFor]
      exact if_neg odd
    rw [card_filled_slot lt here]
    exact ⟨_, done, rfl, filled _ _ done⟩
  · have even : load32 s.mem (pd + 4 * pde) % 2 = 0 := by
      rw [present] at here
      omega
    rw [card_empty_slot here, takePages]
    rcases s.allocPages_page with ⟨none, call⟩ | ⟨F, b, some, call⟩
    · rw [none]
      simp only [tableFor, if_pos even, call]
      rfl
    · rw [some]
      have fits : ∃ b ∈ s.free, 0x1000 ≤ b.sz := by
        obtain ⟨⟨c, rest⟩, taken, _⟩ := Option.map_eq_some_iff.mp some
        obtain ⟨pre, post, split, _, fit, _⟩ := takeFit_split taken
        exact ⟨c, by rw [split]; simp, fit⟩
      obtain ⟨a, s₂, first, cleared, fresh⟩ := sound.cleared (r := 0x1000) rfl (by decide) fits
      have done : tableFor pd pde flags s = .ok (a, { s₂ with
          mem := store32 s₂.mem (pd + 4 * pde) (frameOf (v2p a) ||| flags) }) := by
        have bytes : 4 * 1024 = 0x1000 := rfl
        rw [tableFor]
        simp only [if_pos even, bytes, first, cleared, ok_bind]
        rfl
      refine ⟨_, done, ?_, filled _ _ done⟩
      exact fresh.free.trans (congrArg (fun r => r.2.free) call)

/-! ## The entry of a page -/

theorem TableDir.stored {va e : Nat} (flags : Nat) (dir : TableDir s pd) (sound : s.Sound init)
    (user : va < 0x80000000) (here : present s.mem pd (va / 0x400000)) (word : e < 0x100000000) :
    Rounds init pd flags {x | x / 0x1000 = va / 0x1000} s { s with
        mem := store32 s.mem (table s.mem pd (va / 0x400000) + 4 * (va / 0x1000 % 0x400)) e } ∧
      (∀ i < 1024, load32 (store32 s.mem (table s.mem pd (va / 0x400000) + 4 * (va / 0x1000 % 0x400)) e)
        (pd + 4 * i) = load32 s.mem (pd + 4 * i)) ∧
      ∀ x, x / 0x1000 = va / 0x1000 →
        pageEntry (store32 s.mem (table s.mem pd (va / 0x400000) + 4 * (va / 0x1000 % 0x400)) e) pd x = e := by
  have lt : va / 0x400000 < 512 := by omega
  have single := dir.single _ lt here
  generalize place : table s.mem pd (va / 0x400000) = pt
  have alignedPt : pt % 0x1000 = 0 := place ▸ table_aligned _ _ _
  have apartPd := dir.table_apart (by omega) here single
  rw [place] at apartPd
  let m := store32 s.mem (pt + 4 * (va / 0x1000 % 0x400)) e
  have touched : Frame s.mem m
      (Set.Ico (pt + 4 * (va / 0x1000 % 0x400)) (pt + 4 * (va / 0x1000 % 0x400) + 4)) :=
    store32_frame _ _ _
  have loads : ∀ i < 1024, load32 m (pd + 4 * i) = load32 s.mem (pd + 4 * i) := by
    intro i ltI
    apply touched.load32_eq
    intro x lo hi mem
    simp only [Set.mem_Ico] at mem
    omega
  have slots : ∀ i < 1024, SameSlot s.mem m pd i := fun i ltI => .of_load (loads i ltI)
  -- the entries of two pages lie apart: in tables of their own, or at places of their own
  have entries : ∀ x < 0x100000000, ¬ x / 0x1000 = va / 0x1000 → present s.mem pd (x / 0x400000) →
      ¬ big s.mem pd (x / 0x400000) → pageEntry m pd x = pageEntry s.mem pd x := by
    intro x ltX other now notBig
    rw [pageEntry, pageEntry, (slots _ (by omega)).table]
    apply touched.load32_eq
    intro y lo hi mem
    simp only [Set.mem_Ico] at mem
    by_cases sameSlot : x / 0x400000 = va / 0x400000
    · rw [sameSlot, place] at lo hi
      omega
    · have ne := dir.distinct _ lt _ (show x / 0x400000 < 1024 by omega) (Ne.symm sameSlot) here now notBig
      rw [place] at ne
      have apart := pages_apart alignedPt (table_aligned s.mem pd (x / 0x400000)) ne
      omega
  refine ⟨⟨sound.write rfl rfl, dir.of_same slots fun _ out => out, fun _ out => out,
    fun i ltI now => (slots i (by omega)).present.mpr now,
    fun x ltX other => (slots _ (by omega)).walk_eq (entries x ltX other), fun x ltX other now granted => ?_⟩,
    loads, fun x same => ?_⟩
  · have notBig := dir.single _ (show x / 0x400000 < 512 by omega) now
    refine ⟨(congrArg (· % 0x1000) (entries x (by omega) other now notBig)).trans granted.1, ?_⟩
    exact (congrArg (· &&& flags) (loads (x / 0x400000) (by omega))).trans granted.2
  · have sameSlot : x / 0x400000 = va / 0x400000 := by omega
    rw [pageEntry, (slots _ (by omega)).table, sameSlot, same, place]
    exact (load32_store32_same _ _ _).trans (Nat.mod_eq_of_lt word)

/-- One round: the page of `va` leads to the frame of `pa` with the flags. -/
theorem mapPage_maps {va pa : Nat} (sound : s.Sound init) (dir : TableDir s pd) (ok : TableFlags flags)
    (user : va < 0x80000000) (bound : pa < 0x100000000) (done : mapPage pd va pa flags s = .ok s₂) :
    Rounds init pd flags {x | x / 0x1000 = va / 0x1000} s s₂ ∧ present s₂.mem pd (va / 0x400000) ∧
      ∀ x, x / 0x1000 = va / 0x1000 →
        walk s₂.mem pd x = some (pa / 0x1000 * 0x1000 + x % 0x1000) ∧ Granted s₂.mem pd x flags := by
  have lt : va / 0x400000 < 512 := by omega
  rw [mapPage, bind_eq_ok] at done
  obtain ⟨⟨pt, s₁⟩, found, stored⟩ := done
  have opened := tableFor_opened sound dir ok lt found
  have entry := ok.frame_or bound
  obtain ⟨odd, _, low⟩ := ok
  have same := Except.ok.inj stored
  simp only [← opened.isTable] at same
  generalize written : frameOf pa ||| flags = e at same entry
  obtain ⟨rounds, loads, entries⟩ := opened.rounds.dir.stored flags opened.rounds.sound user opened.here
    (show e < 0x100000000 by omega)
  rw [same] at rounds
  have mem : s₂.mem = store32 s₁.mem (table s₁.mem pd (va / 0x400000) + 4 * (va / 0x1000 % 0x400)) e := by
    rw [← same]
  rw [← mem] at loads entries
  have slot : SameSlot s₁.mem s₂.mem pd (va / 0x400000) := .of_load (loads _ (by omega))
  have here := slot.present.mpr opened.here
  refine ⟨(opened.rounds.mono (Set.empty_subset _)).trans rounds, here, fun x samePage => ?_⟩
  have sameSlot : x / 0x400000 = va / 0x400000 := by omega
  have pageE := entries x samePage
  have notBig : ¬ big s₂.mem pd (va / 0x400000) := rounds.dir.single _ lt here
  have frame : frameOf e = pa / 0x1000 * 0x1000 := by
    rw [frameOf_eq (by omega)]
    omega
  have bit : ¬ e % 2 = 0 := by omega
  refine ⟨?_, ?_, ?_⟩
  · rw [walk_table (by rw [sameSlot]; exact here) (by rw [sameSlot]; exact notBig), pageE, if_neg bit, frame]
  · rw [pageE]
    omega
  · rw [sameSlot, loads _ (by omega)]
    exact opened.grant

theorem mapPage_supplied {va pa : Nat} (sound : s.Sound init) (dir : TableDir s pd)
    (ok : TableFlags flags) (user : va < 0x80000000) :
    Provides id pd {va / 0x400000} s (mapPage pd va pa flags s) := by
  have lt : va / 0x400000 < 512 := by omega
  have first := tableFor_supplied sound dir ok lt
  rw [mapPage, ← Finset.union_empty {va / 0x400000}]
  refine first.bind fun r found => ?_
  obtain ⟨pt, s₁⟩ := r
  have opened := tableFor_opened sound dir ok lt found
  have apart := opened.rounds.dir.table_apart (by omega) opened.here
    (opened.rounds.dir.single _ lt opened.here)
  rw [opened.isTable] at apart
  refine Provides.none rfl rfl (filledSlots_congr fun i ltI => ?_)
  simp only [id]
  apply load32_store32_of_apart
  omega

/-! ## The loop -/

theorem mapPages_maps : ∀ (n va pa : Nat) (s s₂ : Store), s.Sound init → TableDir s pd →
    TableFlags flags → va % 0x1000 = 0 → pa % 0x1000 = 0 → pa < 0x100000000 →
    va + n * 0x1000 ≤ 0x80000000 → mapPages pd flags n va pa s = .ok s₂ →
    Rounds init pd flags (Set.Ico va (va + n * 0x1000)) s s₂ ∧ ∀ x, va ≤ x → x < va + n * 0x1000 →
      walk s₂.mem pd x = some (u32 (pa + (x - va))) ∧ Granted s₂.mem pd x flags := by
  intro n
  induction n with
  | zero =>
      intro va pa s s₂ sound dir _ _ _ _ _ done
      cases done
      exact ⟨.refl sound dir, fun x lo hi => by omega⟩
  | succ n ih =>
      intro va pa s s₂ sound dir ok aligned alignedPa bound user done
      rw [mapPages, bind_eq_ok] at done
      obtain ⟨s₁, first, later⟩ := done
      obtain ⟨round, here, mapped⟩ := mapPage_maps sound dir ok (by omega) bound first
      rw [u32_of_lt (show va + 0x1000 < 0x100000000 by omega)] at later
      have wrapped : u32 (pa + 0x1000) % 0x1000 = 0 := by
        simp only [u32]
        omega
      obtain ⟨rounds, rest⟩ := ih (va + 0x1000) (u32 (pa + 0x1000)) s₁ s₂ round.sound round.dir ok
        (by omega) wrapped (u32_lt _) (by omega) later
      refine ⟨(round.mono fun x mem => ?_).trans (rounds.mono fun x mem => ?_), fun x lo hi => ?_⟩
      · simp only [Set.mem_ofPred_eq] at mem
        simp only [Set.mem_Ico]
        omega
      · simp only [Set.mem_Ico] at mem ⊢
        omega
      · by_cases inRest : va + 0x1000 ≤ x
        · have offset : pa + 0x1000 + (x - (va + 0x1000)) = pa + (x - va) := by omega
          have now := rest x inRest (by omega)
          rw [u32_add, offset] at now
          exact now
        · -- the later rounds leave the first page alone
          have samePage : x / 0x1000 = va / 0x1000 := by omega
          have sameSlot : x / 0x400000 = va / 0x400000 := by omega
          have out : x ∉ Set.Ico (va + 0x1000) (va + 0x1000 + n * 0x1000) := fun mem => inRest mem.1
          have offset : pa / 0x1000 * 0x1000 + x % 0x1000 = pa + (x - va) := by omega
          obtain ⟨walks, granted⟩ := mapped x samePage
          refine ⟨?_, rounds.grants x (by omega) out (by rw [sameSlot]; exact here) granted⟩
          rw [rounds.walks x (by omega) out, walks, offset, u32_of_lt (by omega)]

theorem mapPages_supplied : ∀ (n va pa : Nat) (s : Store), s.Sound init → TableDir s pd →
    TableFlags flags → pa < 0x100000000 → va + n * 0x1000 ≤ 0x80000000 →
    Provides id pd (slotsFrom n va) s (mapPages pd flags n va pa s) := by
  intro n
  induction n with
  | zero => intro va pa s _ _ _ _ _; exact Provides.none rfl rfl rfl
  | succ n ih =>
      intro va pa s sound dir ok bound user
      rw [mapPages, slotsFrom_succ]
      refine (mapPage_supplied sound dir ok (by omega)).bind fun s₁ done => ?_
      obtain ⟨round, _, _⟩ := mapPage_maps sound dir ok (by omega) bound done
      rw [u32_of_lt (show va + 0x1000 < 0x100000000 by omega)]
      exact ih (va + 0x1000) _ s₁ round.sound round.dir ok (u32_lt _) (by omega)

end Rounds

/-! ## The whole range -/

structure MapsExactly (init : List Block) (pd va pa len flags : Nat) (s s' : Store) : Prop where
  mapped : ∀ x, pgRounddown va ≤ x → x < pgRounddown va + pgRoundup len →
    walk s'.mem pd x = some (u32 (pgRounddown pa + (x - pgRounddown va))) ∧ Granted s'.mem pd x flags
  others : ∀ x < 0x100000000, ¬ (pgRounddown va ≤ x ∧ x < pgRounddown va + pgRoundup len) →
    walk s'.mem pd x = walk s.mem pd x
  sound : s'.Sound init
  dir : TableDir s' pd

/-- When there is a page for every table that is missing, `alloc_pt` returns and maps exactly
the range it was asked for, anywhere in the user half. -/
theorem alloc_pt_exact {init : List Block} {pd va pa len flags : Nat} {s : Store} (sound : s.Sound init)
    (dir : TableDir s pd) (ok : TableFlags flags) (bound : pa < 0x100000000)
    (user : pgRounddown va + pgRoundup len ≤ kernelOffset)
    (supply : (takePages (tableSlots va len \ filledSlots s.mem pd).card s.free).isSome) :
    ∃ s', allocPt pd va pa len flags s = .ok s' ∧ MapsExactly init pd va pa len flags s s' := by
  have offset : kernelOffset = 0x80000000 := rfl
  have whole : pgRoundup len / 0x1000 * 0x1000 = pgRoundup len := by
    have := pgRoundup_mod len
    omega
  have below : pgRounddown pa < 0x100000000 := by
    rw [pgRounddown_eq]
    omega
  have range : pgRounddown va + pgRoundup len / 0x1000 * 0x1000 ≤ 0x80000000 := by omega
  have provides := mapPages_supplied _ _ _ s sound dir ok below range
  obtain ⟨F, enough⟩ := Option.isSome_iff_exists.mp supply
  rw [tableSlots] at enough
  rw [Provides, enough] at provides
  obtain ⟨s', done, _⟩ := provides
  obtain ⟨rounds, mapped⟩ := mapPages_maps _ _ _ s s' sound dir ok (pgRounddown_mod va)
    (pgRounddown_mod pa) below range done
  rw [whole] at rounds mapped
  exact ⟨s', done, mapped, fun x lt out => rounds.walks x lt out, rounds.sound, rounds.dir⟩

theorem TableDir.of_zero {s : Store} {pd : Nat} (aligned : pd % 0x1000 = 0)
    (own : ∀ x ∈ page pd, Outside s.free x) (zero : ∀ x, s.mem x = 0) : TableDir s pd := by
  have empty : ∀ i < 1024, ¬ present s.mem pd i := by
    intro i lt here
    rw [present, bytes_of_page_zero (fun x _ => zero x) lt] at here
    omega
  exact ⟨aligned, own, fun i lt here => absurd here (empty i (by omega)),
    fun i lt here => absurd here (empty i lt), fun i lt here => absurd here (empty i lt),
    fun i lt _ _ _ here => absurd here (empty i (by omega))⟩

theorem smallKernel_dir : TableDir smallKernel.store 0x80500000 := by
  refine .of_zero rfl (fun x mem b inFree => ?_) fun _ => rfl
  simp only [page, Set.mem_Ico] at mem
  simp only [smallKernel, smallFree, List.mem_cons, List.not_mem_nil, or_false] at inFree
  rcases inFree with rfl | rfl
  · dsimp only
    omega
  · dsimp only
    omega

theorem alloc_pt_exact_first : ∃ s', allocPt 0x80500000 0x401234 0x200567 0x2000 3 smallKernel.store = .ok s' ∧
    MapsExactly smallFree 0x80500000 0x401234 0x200567 0x2000 3 smallKernel.store s' :=
  alloc_pt_exact smallKernel_sound smallKernel_dir ⟨rfl, rfl, by decide⟩ (by decide) (by decide)
    (by decide +kernel)

def sharedTable : Store :=
  { smallKernel.store with
    mem := store32 (store32 smallKernel.store.mem (0x80500000 + 4 * 1) 0x501007)
      (0x80500000 + 4 * 512) 0x501007 }

theorem sharedTable_user : sharedTable.Sound smallFree ∧
    (∀ i < 512, present sharedTable.mem 0x80500000 i → i = 1) ∧
    ¬ big sharedTable.mem 0x80500000 1 ∧ table sharedTable.mem 0x80500000 1 = 0x80501000 ∧
    ∀ x, 0x80500000 ≤ x → Outside sharedTable.free x := by
  refine ⟨smallKernel_sound.write rfl rfl, fun i lt here => ?_, ?_, by decide +kernel, fun x high b inFree => ?_⟩
  · by_contra other
    have unchanged : load32 sharedTable.mem (0x80500000 + 4 * i) =
        load32 smallKernel.store.mem (0x80500000 + 4 * i) := by
      rw [sharedTable, load_slot _ _ _ _ _ (by decide), if_neg (by omega), load_slot _ _ _ _ _ (by decide),
        if_neg other]
    have zero : load32 smallKernel.store.mem (0x80500000 + 4 * i) = 0 :=
      bytes_of_page_zero (fun _ _ => rfl) (by omega)
    rw [present, unchanged, zero] at here
    omega
  · rw [big]
    decide +kernel
  · simp only [sharedTable, smallKernel, smallFree, List.mem_cons, List.not_mem_nil, or_false] at inFree
    rcases inFree with rfl | rfl
    · dsimp only
      omega
    · dsimp only
      omega

theorem allocPt_walk_ne {pd va pa len flags x : Nat} {s : Store} {w : Option Nat}
    (result : (allocPt pd va pa len flags s).toOption.map (fun s => decide (walk s.mem pd x = w)) = some false) :
    ∃ s', allocPt pd va pa len flags s = .ok s' ∧ walk s'.mem pd x ≠ w := by
  obtain ⟨s', done, value⟩ := Option.map_eq_some_iff.mp result
  exact ⟨s', ok_of_toOption done, of_decide_eq_false value⟩

/-- With `PG_PSE` the entry of the directory maps 4 MiB by itself, a flag above the twelve low
bits moves the frame, and a table that the kernel half shares changes there as well. -/
theorem alloc_pt_inexact :
    smallKernel.store.Sound smallFree ∧ TableDir smallKernel.store 0x80500000 ∧
    pgRounddown 0x401000 + pgRoundup 0x1000 ≤ kernelOffset ∧
    (∃ s', allocPt 0x80500000 0x401000 0x200000 0x1000 0x81 smallKernel.store = .ok s' ∧
      walk s'.mem 0x80500000 0x401000 ≠ some 0x200000) ∧
    (∃ s', allocPt 0x80500000 0x401000 0x200000 0x1000 0x1001 smallKernel.store = .ok s' ∧
      walk s'.mem 0x80500000 0x401000 ≠ some 0x200000) ∧
    (sharedTable.Sound smallFree ∧ (∀ i < 512, present sharedTable.mem 0x80500000 i → i = 1) ∧
      ¬ big sharedTable.mem 0x80500000 1 ∧ table sharedTable.mem 0x80500000 1 = 0x80501000 ∧
      ∀ x, 0x80500000 ≤ x → Outside sharedTable.free x) ∧
    walk sharedTable.mem 0x80500000 0x80001000 = none ∧
    ∃ s', allocPt 0x80500000 0x401000 0x200000 0x1000 7 sharedTable = .ok s' ∧
      walk s'.mem 0x80500000 0x80001000 ≠ none :=
  ⟨smallKernel_sound, smallKernel_dir, by decide, allocPt_walk_ne (by decide +kernel),
    allocPt_walk_ne (by decide +kernel), sharedTable_user, by decide +kernel,
    allocPt_walk_ne (by decide +kernel)⟩

end Trunix
