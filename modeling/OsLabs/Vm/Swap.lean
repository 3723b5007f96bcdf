import OsLabs.Vm.Paging

/-! @src lab3_vm/zig/src/main.zig | name:swap store | scheme:paged

    The swap of the Zig program: `new_swap_page` counts pages off, `write_page` copies a frame to a
    swap page and `read_page` copies it back. Slices are bounds-checked and the arithmetic on pages
    is checked 27-bit arithmetic; both trap (`none`). A history lists what was called, the last call
    first, with the words that each `write_page` found in its frame.

        new_swap_page   ─▶   1, 2, .., 128
        swap                 0 │ 1 │ .. │ 127 │            128 is not a page of the swap -/

namespace OsLabs.Vm
open Schemes

abbrev swapPages : ℕ := 128
abbrev swapSize : ℕ := swapPages * pagesize

/-- The variables of `vmem_t` with those of the swap. -/
structure SwapVmem extends Vmem where
  swap : ℕ → Word
  count : BitVec 27

namespace Zig

/-- `[page * PAGESIZE .. (page + 1) * PAGESIZE]` of an array of `len` words, as its two ends. -/
def pageSlice (len : ℕ) (page : BitVec 27) : Option (ℕ × ℕ) := do
  let start ← umul page (BitVec.ofNat 27 pagesize)
  let next ← uadd page 1
  let stop ← umul next (BitVec.ofNat 27 pagesize)
  if start.toNat ≤ stop.toNat ∧ stop.toNat ≤ len then some (start.toNat, stop.toNat) else none

/-- `std.mem.copy`, which takes `dest[0 .. source.len]` and copies word by word. -/
def copy (dest : ℕ → Word) (d : ℕ × ℕ) (source : ℕ → Word) (s : ℕ × ℕ) : Option (ℕ → Word) :=
  if s.2 - s.1 ≤ d.2 - d.1 then some (blit dest d.1 source s.1 (s.2 - s.1)) else none

def readPage (vm : SwapVmem) (physPage swapPage : BitVec 27) : Option SwapVmem := do
  let dest ← pageSlice ramSize physPage
  let source ← pageSlice swapSize swapPage
  let memory ← copy vm.memory dest vm.swap source
  some { vm with memory := memory }

def writePage (vm : SwapVmem) (physPage swapPage : BitVec 27) : Option SwapVmem := do
  let dest ← pageSlice swapSize swapPage
  let source ← pageSlice ramSize physPage
  let swap ← copy vm.swap dest vm.memory source
  some { vm with swap := swap }

def newSwapPage (vm : SwapVmem) : Option (SwapVmem × BitVec 27) := do
  let count ← if vm.count.toNat < swapPages then uadd vm.count 1 else none
  some ({ vm with count := count }, count)

/-! ### Slices -/

/-- The slice of a page is there if the page is in the array. -/
theorem pageSlice_eq {len : ℕ} (hlen : len < 2 ^ 27) (page : BitVec 27) :
    pageSlice len page = if (page.toNat + 1) * pagesize ≤ len
      then some (page.toNat * pagesize, (page.toNat + 1) * pagesize) else none := by
  have hfour : (BitVec.ofNat 27 pagesize).toNat = 4 := rfl
  have hnext (h : page.toNat + 1 < 2 ^ 27) : (page + 1).toNat = page.toNat + 1 :=
    BitVec.toNat_add_of_lt h
  by_cases hfit : (page.toNat + 1) * 4 < 2 ^ 27
  · have hone : page.toNat + 1 < 2 ^ 27 := by omega
    have hmul : page.toNat * 4 < 2 ^ 27 := by omega
    have hstart : (page * BitVec.ofNat 27 pagesize).toNat = page.toNat * 4 :=
      (BitVec.toNat_mul ..).trans (Nat.mod_eq_of_lt hmul)
    have hstop : ((page + 1) * BitVec.ofNat 27 pagesize).toNat = (page.toNat + 1) * 4 := by
      rw [BitVec.toNat_mul, hnext hone, hfour, Nat.mod_eq_of_lt hfit]
    simp only [pageSlice, umul_eq, uadd_one (show 0 < 27 by decide), hfour, hmul, hone,
      hnext hone, hfit, hstart, hstop, if_true, Option.bind_eq_bind, Option.bind_some]
    exact if_congr (and_iff_right (by omega)) rfl rfl
  · -- one of the two products, or the sum, does not fit
    rw [if_neg (fun h => hfit (Nat.lt_of_le_of_lt h hlen))]
    simp only [pageSlice, umul_eq, uadd_one (show 0 < 27 by decide), hfour]
    split_ifs with hmul hone
    · rw [Option.bind_eq_bind, Option.bind_some, Option.bind_some, hnext hone, if_neg hfit]
      rfl
    · rfl
    · rfl
    · rfl

/-- A frame is a page of the RAM if it is below RAM_PAGES. -/
theorem pageSlice_ram (physPage : BitVec 27) :
    pageSlice ramSize physPage = if physPage.toNat < ramPages
      then some (physPage.toNat * pagesize, (physPage.toNat + 1) * pagesize) else none := by
  rw [pageSlice_eq (by decide)]
  exact if_congr (Nat.mul_le_mul_right_iff (by decide)) rfl rfl

theorem pageSlice_swap (swapPage : BitVec 27) :
    pageSlice swapSize swapPage = if swapPage.toNat < swapPages
      then some (swapPage.toNat * pagesize, (swapPage.toNat + 1) * pagesize) else none := by
  rw [pageSlice_eq (by decide)]
  exact if_congr (Nat.mul_le_mul_right_iff (by decide)) rfl rfl

/-- A page is copied to a page. -/
theorem copy_page (dest source : ℕ → Word) (p q : ℕ) :
    copy dest (p * pagesize, (p + 1) * pagesize) source (q * pagesize, (q + 1) * pagesize) =
      some (blit dest (p * pagesize) source (q * pagesize) pagesize) := by
  have hlen (r : ℕ) : (r + 1) * pagesize - r * pagesize = pagesize := by
    rw [Nat.add_mul, Nat.one_mul, Nat.add_sub_cancel_left]
  rw [copy, hlen, hlen, if_pos (Nat.le_refl _)]

theorem readPage_eq (vm : SwapVmem) {f s : BitVec 27} (hf : f.toNat < ramPages) :
    readPage vm f s = if s.toNat < swapPages then some { vm with
      memory := blit vm.memory (f.toNat * pagesize) vm.swap (s.toNat * pagesize) pagesize }
      else none := by
  rw [readPage, pageSlice_ram, pageSlice_swap, if_pos hf]
  split_ifs
  · rw [Option.bind_eq_bind, Option.bind_some, Option.bind_some, copy_page]
    rfl
  · rfl

theorem writePage_eq (vm : SwapVmem) {f s : BitVec 27} (hf : f.toNat < ramPages) :
    writePage vm f s = if s.toNat < swapPages then some { vm with
      swap := blit vm.swap (s.toNat * pagesize) vm.memory (f.toNat * pagesize) pagesize }
      else none := by
  rw [writePage, pageSlice_ram, pageSlice_swap, if_pos hf]
  split_ifs
  · rw [Option.bind_eq_bind, Option.bind_some, Option.bind_some, copy_page]
    rfl
  · rfl

theorem newSwapPage_eq (vm : SwapVmem) : newSwapPage vm = if vm.count.toNat < swapPages
    then some ({ vm with count := vm.count + 1 }, vm.count + 1) else none := by
  rw [newSwapPage]
  split_ifs with h
  · have hfit : vm.count.toNat + 1 < 2 ^ 27 := by
      have : vm.count.toNat < 128 := h
      omega
    rw [uadd_one (by decide), if_pos hfit]
    rfl
  · rfl

/-! ### Histories -/

/-- A call, or a store of the program in the RAM. -/
inductive Event where
  | newSwapPage (id : BitVec 27)
  | writePage (physPage swapPage : BitVec 27) (words : List Word)
  | readPage (physPage swapPage : BitVec 27)
  | store (addr : ℕ) (data : Word)
  deriving DecidableEq

/-- The pages that `new_swap_page` has returned. -/
def returned : List Event → List (BitVec 27)
  | [] => []
  | .newSwapPage id :: es => id :: returned es
  | _ :: es => returned es

/-- The words of the most recent `write_page` to a page. -/
def written : List Event → BitVec 27 → Option (List Word)
  | [], _ => none
  | .writePage _ t words :: es, s => if t = s then some words else written es s
  | _ :: es, s => written es s

/-- What can happen from `start` on: the frames are frames and the swap pages have been returned. -/
inductive Run (start : SwapVmem) : List Event → SwapVmem → Prop
  | fresh : Run start [] start
  | newSwapPage {es : List Event} {vm vm' : SwapVmem} {id : BitVec 27} (h : Run start es vm)
      (hc : newSwapPage vm = some (vm', id)) : Run start (.newSwapPage id :: es) vm'
  | writePage {es : List Event} {vm vm' : SwapVmem} {f s : BitVec 27} (h : Run start es vm)
      (hf : f.toNat < ramPages) (hs : s ∈ returned es) (hc : writePage vm f s = some vm') :
      Run start (.writePage f s (pageAt pagesize vm.memory f.toNat) :: es) vm'
  | readPage {es : List Event} {vm vm' : SwapVmem} {f s : BitVec 27} (h : Run start es vm)
      (hf : f.toNat < ramPages) (hs : s ∈ returned es) (hc : readPage vm f s = some vm') :
      Run start (.readPage f s :: es) vm'
  | store {es : List Event} {vm : SwapVmem} {m : Vmem} {addr : ℕ} {data : Word}
      (h : Run start es vm) (hc : vm.toVmem.store addr data = some m) :
      Run start (.store addr data :: es) { vm with toVmem := m }

/-- `write_page` is within the arrays, stores the frame and changes no other swap page. -/
def Writes (vm : SwapVmem) (f s : BitVec 27) : Prop := ∃ vm', writePage vm f s = some vm' ∧
  pageAt pagesize vm'.swap s.toNat = pageAt pagesize vm.memory f.toNat ∧
  ∀ p, p ≠ s.toNat → pageAt pagesize vm'.swap p = pageAt pagesize vm.swap p

/-- `read_page` is within the arrays, fills the frame with the words of the most recent `write_page`
    and changes no other frame. -/
def Reads (es : List Event) (vm : SwapVmem) (f s : BitVec 27) : Prop :=
  ∃ vm', readPage vm f s = some vm' ∧
    (∀ words, written es s = some words → pageAt pagesize vm'.memory f.toNat = words) ∧
    ∀ g, g ≠ f.toNat → pageAt pagesize vm'.memory g = pageAt pagesize vm.memory g

/-- What holds after a history. -/
structure Keeps (es : List Event) (vm : SwapVmem) : Prop where
  count : vm.count.toNat = (returned es).length
  counted : ∀ s ∈ returned es, s.toNat ≤ vm.count.toNat
  nodup : (returned es).Nodup
  kept : ∀ s words, written es s = some words → pageAt pagesize vm.swap s.toNat = words

namespace Keeps
variable {es : List Event} {vm vm' : SwapVmem} {f s : BitVec 27}

theorem newSwapPage {id : BitVec 27} (h : Keeps es vm) (hc : newSwapPage vm = some (vm', id)) :
    Keeps (.newSwapPage id :: es) vm' := by
  rw [newSwapPage_eq] at hc
  split_ifs at hc with hlt
  obtain ⟨rfl, rfl⟩ := Prod.ext_iff.mp (Option.some.inj hc)
  have hnext : (vm.count + 1).toNat = vm.count.toNat + 1 := by
    have : vm.count.toNat < 128 := hlt
    exact BitVec.toNat_add_of_lt (show vm.count.toNat + 1 < 2 ^ 27 by omega)
  refine ⟨?_, ?_, ?_, h.kept⟩
  · change (vm.count + 1).toNat = (returned es).length + 1
    rw [hnext, h.count]
  · intro s hs
    change s.toNat ≤ (vm.count + 1).toNat
    rcases List.mem_cons.mp hs with rfl | hs
    · exact Nat.le_refl _
    · rw [hnext]
      exact Nat.le_succ_of_le (h.counted s hs)
  · -- the new page is above all that were counted before
    refine List.nodup_cons.mpr ⟨fun hmem => ?_, h.nodup⟩
    have hle : (vm.count + 1).toNat ≤ vm.count.toNat := h.counted _ hmem
    rw [hnext] at hle
    exact Nat.not_succ_le_self _ hle

theorem writePage (h : Keeps es vm) (hf : f.toNat < ramPages)
    (hc : writePage vm f s = some vm') :
    Keeps (.writePage f s (pageAt pagesize vm.memory f.toNat) :: es) vm' := by
  rw [writePage_eq vm hf] at hc
  split_ifs at hc
  obtain rfl := Option.some.inj hc
  refine ⟨h.count, h.counted, h.nodup, ?_⟩
  intro t words ht
  rw [written] at ht
  split_ifs at ht with hst
  · subst hst
    rw [← Option.some.inj ht]
    exact pageAt_blit
  · have hne : t.toNat ≠ s.toNat := fun he => hst (BitVec.eq_of_toNat_eq he.symm)
    exact (pageAt_blit_of_ne hne).trans (h.kept t words ht)

theorem readPage (h : Keeps es vm) (hf : f.toNat < ramPages) (hc : readPage vm f s = some vm') :
    Keeps (.readPage f s :: es) vm' := by
  rw [readPage_eq vm hf] at hc
  split_ifs at hc
  obtain rfl := Option.some.inj hc
  exact ⟨h.count, h.counted, h.nodup, h.kept⟩

/-- A run keeps every page. -/
theorem run {start : SwapVmem} (hcount : start.count = 0) (h : Run start es vm) : Keeps es vm := by
  induction h with
  | fresh =>
    refine ⟨by rw [hcount]; rfl, ?_, List.nodup_nil, ?_⟩
    · intro s hs
      cases hs
    · intro s words hw
      cases hw
  | newSwapPage _ hc ih => exact ih.newSwapPage hc
  | writePage _ hf _ hc ih => exact ih.writePage hf hc
  | readPage _ hf _ hc ih => exact ih.readPage hf hc
  | store _ hc ih => exact ⟨ih.count, ih.counted, ih.nodup, ih.kept⟩

end Keeps

/-- CORRECT (swap store): whatever was called from a fresh `vmem_t` on, the pages returned are
    different, and both directions work exactly on the pages below SWAP_PAGES. -/
theorem swap_kept {start vm : SwapVmem} {es : List Event} (hcount : start.count = 0)
    (h : Run start es vm) : (returned es).Nodup ∧
      ((newSwapPage vm).isSome ↔ (returned es).length < swapPages) ∧
      ∀ f s : BitVec 27, f.toNat < ramPages → s ∈ returned es →
        (Writes vm f s ↔ s.toNat < swapPages) ∧ (Reads es vm f s ↔ s.toNat < swapPages) := by
  have hk : Keeps es vm := .run hcount h
  refine ⟨hk.nodup, ?_, ?_⟩
  · rw [newSwapPage_eq, ← hk.count]
    split_ifs with hlt
    · exact iff_of_true rfl hlt
    · exact iff_of_false Bool.false_ne_true hlt
  · intro f s hf hs
    rw [Writes, Reads, writePage_eq vm hf, readPage_eq vm hf]
    by_cases hlt : s.toNat < swapPages
    · rw [if_pos hlt, if_pos hlt]
      refine ⟨iff_of_true ⟨_, rfl, pageAt_blit, fun p hp => pageAt_blit_of_ne hp⟩ hlt,
        iff_of_true ⟨_, rfl, ?_, fun g hg => pageAt_blit_of_ne hg⟩ hlt⟩
      intro words hw
      exact pageAt_blit.trans (hk.kept s words hw)
    · rw [if_neg hlt, if_neg hlt]
      exact ⟨iff_of_false (fun ⟨_, he, _⟩ => by cases he) hlt,
        iff_of_false (fun ⟨_, he, _⟩ => by cases he) hlt⟩

/-- A `vmem_t` with zeros where nothing was written. -/
def blank : SwapVmem where
  numPagefault := 0
  pageTable _ := ⟨0, false, false, false, false, false⟩
  memory _ := 0
  replace := .fifo
  swap _ := 0
  count := 0

/-- Frame 0 goes to the first page, and frame 7 gets it back. -/
theorem swap_kept_reload : ∃ es vm, Run blank es vm ∧ written es 1 = some [9, 0, 0, 0] ∧
    Reads es vm 7 1 := by
  have h₁ : Run blank [.newSwapPage 1] { blank with count := 1 } := .newSwapPage .fresh rfl
  have h₂ : Run blank [.store 0 9, .newSwapPage 1] _ := .store h₁ rfl
  have h₃ : Run blank [.writePage 0 1 [9, 0, 0, 0], .store 0 9, .newSwapPage 1] _ :=
    .writePage h₂ (by decide) (by decide) rfl
  have hs : (1 : BitVec 27) ∈ returned [.writePage 0 1 [9, 0, 0, 0], .store 0 9, .newSwapPage 1] :=
    List.mem_singleton_self _
  exact ⟨_, _, h₃, rfl, ((swap_kept rfl h₃).2.2 7 1 (by decide) hs).2.mpr (by decide)⟩

/-- The pages are counted from 1 on. -/
theorem run_count {start : SwapVmem} (hcount : start.count = 0) : ∀ n, n ≤ swapPages →
    Run start ((List.range n).reverse.map fun i => .newSwapPage (BitVec.ofNat 27 (i + 1)))
      { start with count := BitVec.ofNat 27 n }
  | 0, _ => by
    have heq : { start with count := BitVec.ofNat 27 0 } = start := by
      rw [show BitVec.ofNat 27 0 = start.count from hcount.symm]
    rw [heq]
    exact .fresh
  | n + 1, h => by
    have hlt : n < 128 := h
    have hn : (BitVec.ofNat 27 n).toNat < swapPages := by
      rw [BitVec.toNat_ofNat, Nat.mod_eq_of_lt (by omega)]
      exact hlt
    have hc := (newSwapPage_eq { start with count := BitVec.ofNat 27 n }).trans (if_pos hn)
    rw [List.range_succ, List.reverse_append, List.reverse_singleton, List.singleton_append,
      List.map_cons, BitVec.ofNat_add]
    exact .newSwapPage (run_count hcount n (Nat.le_of_succ_le h)) hc

/-- The last of the SWAP_PAGES pages is 128, which is behind the end of the swap. -/
theorem full_swap : ∃ es vm, Run blank es vm ∧ (returned es).length = swapPages ∧
    (128 : BitVec 27) ∈ returned es ∧ ¬Writes vm 0 128 ∧ ¬Reads es vm 0 128 := by
  refine ⟨_, _, run_count rfl swapPages (Nat.le_refl _), rfl, by decide, ?_, ?_⟩
  · rintro ⟨_, he, _⟩
    cases he
  · rintro ⟨_, he, _⟩
    cases he

end Zig
end OsLabs.Vm
