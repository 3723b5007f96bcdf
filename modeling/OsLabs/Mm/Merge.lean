import OsLabs.Mm.Linked

/-! @src lab5_mm/ll-mm.c | name:merge_blocks | scheme:coalesce

    What `merge_blocks` leaves behind. From the given block on, every maximal run of free blocks is
    one block, the occupied ones are where they were, and the headers that went are free bytes now.
    Called for `first` after every `is_free = true`, or once after all of them, it comes to the same
    chain: the merged chain with those blocks released. -/

namespace OsLabs.Mm
open Schemes

/-- The heap `h'` has the blocks `bs` where `h` had `rest`, behind `l`: no two of them are adjacent
    and free, the occupied ones are the old ones, and the free ones span runs of old ones. -/
structure Coalesced (h h' : Heap) (l rest bs : List Cell) : Prop where
  linked : Linked metaSize h' (l ++ bs)
  settled : Settled bs
  occupied : (bs.filter fun x => !x.free) = rest.filter fun x => !x.free
  runs : ∀ e ∈ bs, e.free = true → IsRun metaSize rest e
  bytes : ∀ x ∈ l ++ rest, x ∈ l ∨ x.free = false → ∀ a, x.lo ≤ a → a < x.hi →
    h'.mem a = h.mem a
  sizes : ∃ fuel used unused k, usedSize fuel h = some used ∧ usedSize fuel h' = some used ∧
    unusedSize fuel h = some unused ∧ unusedSize fuel h' = some (unused + metaSize * k) ∧
    bs.length + k = rest.length

section merge
variable {h h' : Heap} {c : Cell} {l r cs bs : List Cell} {free : Bool} {n n' pb s : ℕ}

theorem sizeWhere_mono (hn : n ≤ n') (hs : sizeWhere free n h = some s) :
    sizeWhere free n' h = some s := by
  rw [sizeWhere] at hs ⊢
  exact ite_iter_mono hn hs

theorem mergeBlocks_mono (hn : n ≤ n') (hs : mergeBlocks n pb h = some h') :
    mergeBlocks n' pb h = some h' := by
  rw [mergeBlocks] at hs ⊢
  exact ite_iter_mono hn hs

/-- Two chains over the same range with the same occupied blocks: the headers that one has less are
    data of its free blocks. -/
theorem sizes_of_occupied (hl : Linked 16 h cs) (hl' : Linked 16 h' bs)
    (hfirst : h'.first = h.first) (hbrk : h'.brk = h.brk)
    (hocc : (bs.filter fun x => !x.free) = cs.filter fun x => !x.free)
    (hlen : bs.length ≤ cs.length) : ∃ used unused,
      usedSize (cs.length + 1) h = some used ∧ usedSize (cs.length + 1) h' = some used ∧
      unusedSize (cs.length + 1) h = some unused ∧
      unusedSize (cs.length + 1) h' = some (unused + metaSize * (cs.length - bs.length)) := by
  have hfalse : (fun c : Cell => c.free == false) = fun c => !c.free := by
    funext c; cases c.free <;> rfl
  have htrue : (fun c : Cell => !!c.free) = fun c => c.free == true := by
    funext c; cases c.free <;> rfl
  have hpay : payload 16 (fun c => !c.free) bs = payload 16 (fun c => !c.free) cs := by
    rw [payload, payload, hocc]
  have hsum := hl.tiles.payload_sum fun c => !c.free
  have hsum' := hl'.tiles.payload_sum fun c => !c.free
  rw [htrue] at hsum hsum'
  rw [hfirst, hbrk, hpay] at hsum'
  have hmeta : metaSize = 16 := rfl
  have hfree : payload 16 (fun c => c.free == true) bs =
      payload 16 (fun c => c.free == true) cs + metaSize * (cs.length - bs.length) := by
    rw [hmeta]
    omega
  have hused := hl.sizeWhere_eq false
  have hused' := sizeWhere_mono (Nat.succ_le_succ hlen) (hl'.sizeWhere_eq false)
  have hunused' := sizeWhere_mono (Nat.succ_le_succ hlen) (hl'.sizeWhere_eq true)
  rw [hfalse] at hused hused'
  rw [hpay] at hused'
  rw [hfree] at hunused'
  exact ⟨_, _, hused, hused', hl.sizeWhere_eq true, hunused'⟩

/-- The `next` field of a free block lies in no other block. -/
theorem outside_headers (hl : Linked 16 h (l ++ c :: r)) {x : Cell} (hx : x ∈ l ++ c :: r)
    (hkeep : x ∈ l ∨ x.free = false) {a : ℕ} (hlo : x.lo ≤ a) (hhi : a < x.hi) :
    ∀ y ∈ c :: r, y.free = true → a < y.lo + 8 ∨ y.lo + 16 ≤ a := by
  intro y hy hfree
  have hy' := hl.bounds (List.mem_append_right l hy)
  rcases hkeep with hxl | hocc
  · have hxc := (hl.tiles.cut.1.bounds hxl).2.2
    have hcy := (hl.tiles.cut.2.bounds hy).1
    omega
  · have hne : x ≠ y := by
      rintro rfl
      rw [hfree] at hocc
      cases hocc
    have := hl.tiles.disjoint hx (List.mem_append_right l hy) hne
    omega

/-- CORRECT (merge_blocks): called for any block of a chain, `merge_blocks` terminates and coalesces
    from there on; called again, it changes nothing. -/
theorem mergeBlocks_coalesces (hl : Linked metaSize h (l ++ c :: r)) : ∃ fuel h' bs,
    mergeBlocks fuel c.lo h = some h' ∧ Coalesced h h' l (c :: r) bs ∧
      mergeBlocks fuel c.lo h' = some h' := by
  obtain ⟨mem, hrun, hlinked, hframe⟩ := hl.mergeBlocks (by decide) hl.apart
  have hlen : (coalesce c r).length ≤ r.length + 1 := length_merged_le (c :: r)
  refine ⟨r.length + 1, { h with mem := mem }, coalesce c r, hrun, ⟨hlinked, settled_coalesce r c,
    filter_coalesce r c, coalesce_run r hl.tiles.cut.2, fun x hx hkeep a hlo hhi => ?_, ?_⟩, ?_⟩
  · exact hframe a (outside_headers hl hx hkeep hlo hhi)
  · obtain ⟨used, unused, hu, hu', hf, hf'⟩ := sizes_of_occupied hl hlinked rfl rfl
      (by rw [List.filter_append, List.filter_append, filter_coalesce])
      (by simpa [List.length_append] using hlen)
    refine ⟨_, used, unused, _, hu, hu', hf, hf', ?_⟩
    rw [List.length_append, List.length_append, List.length_cons]
    omega
  · obtain ⟨e, t, het, hlo, -⟩ := coalesce_head r c
    have hsettled := settled_coalesce r c
    rw [het] at hlinked hsettled hlen
    rw [← hlo]
    exact mergeBlocks_mono hlen (hlinked.mergeBlocks_settled (by decide) hsettled)

end merge

/-- Three occupied blocks of 32 bytes. -/
def threeBlocks : Heap :=
  (((⟨fun _ => 0, 4192, 4096, 4096⟩ : Heap).setNext 4096 4128).setNext 4128 4160).setNext 4160 4192

/-- The last two of them are free. -/
def twoFree : Heap := (threeBlocks.setFree 4128 true).setFree 4160 true

theorem linked_threeBlocks {m : ℕ} (hm : m ≤ 32) : Linked m threeBlocks
    [⟨4096, 4128, false⟩, ⟨4128, 4160, false⟩, ⟨4160, 4192, false⟩] := by
  refine ⟨⟨rfl, ?_, rfl, ?_, rfl, ?_, rfl⟩, by decide +kernel, by decide, by decide⟩ <;>
    simp only <;> omega

theorem linked_twoFree : Linked metaSize twoFree
    [⟨4096, 4128, false⟩, ⟨4128, 4160, true⟩, ⟨4160, 4192, true⟩] :=
  ⟨⟨rfl, by decide, rfl, by decide, rfl, by decide, rfl⟩, by decide +kernel, by decide, by decide⟩

/-- The two free blocks become one. -/
theorem mergeBlocks_coalesces_twoFree : ∃ fuel h' bs, mergeBlocks fuel 4096 twoFree = some h' ∧
    Coalesced twoFree h' [] [⟨4096, 4128, false⟩, ⟨4128, 4160, true⟩, ⟨4160, 4192, true⟩] bs ∧
      mergeBlocks fuel 4096 h' = some h' :=
  mergeBlocks_coalesces (l := []) (c := ⟨4096, 4128, false⟩) linked_twoFree

/-! ### Freeing several blocks -/

/-- Mark the blocks free one by one and merge after each of them. -/
def freeEach (fuel : ℕ) : List ℕ → Heap → Option Heap
  | [], h => some h
  | p :: ps, h => do
    let h ← mergeBlocks fuel h.first (h.setFree p true)
    freeEach fuel ps h

/-- Mark all the blocks free. -/
def freeAll (ps : List ℕ) (h : Heap) : Heap := ps.foldl (fun h p => h.setFree p true) h

/-- `ps` are different occupied blocks. -/
structure Occupied (cs : List Cell) (ps : List ℕ) : Prop where
  nodup : ps.Nodup
  block : ∀ p ∈ ps, ∃ c ∈ cs, c.lo = p ∧ c.free = false

section freeing
variable {m : ℕ} {h : Heap} {c : Cell} {cs : List Cell} {p : ℕ} {ps qs : List ℕ}

theorem apart_release (ha : Apart cs) : Apart (release ps cs) := by
  rw [Apart, release_map_lo]
  exact ha

/-- Marking a block free releases its cell. -/
theorem Linked.release (hl : Linked m h cs) (ha : Apart cs) (hc : c ∈ cs) :
    Linked m (h.setFree c.lo true) (release [c.lo] cs) := by
  obtain ⟨l, r, rfl⟩ := List.append_of_mem hc
  rw [release_split ha.nodup]
  exact hl.setFree ha true

/-- `merge_blocks(first)` merges the whole chain. -/
theorem Linked.merge_first (hl : Linked m h cs) (ha : Apart cs) (hm : 0 < m) (hc : c ∈ cs) {n : ℕ}
    (hn : cs.length ≤ n) :
    ∃ h', Mm.mergeBlocks n h.first h = some h' ∧ Linked m h' (merged cs) := by
  cases cs with
  | nil => cases hc
  | cons d ds =>
    obtain ⟨mem, hrun, hlinked, -⟩ := Linked.mergeBlocks (l := []) hm hl ha
    rw [hl.tiles.1] at hrun
    exact ⟨_, mergeBlocks_mono hn hrun, hlinked⟩

/-- One block is freed and everything merged. -/
theorem Linked.free_merge (hl : Linked m h cs) (ha : Apart cs) (hm : 0 < m) (hc : c ∈ cs) {n : ℕ}
    (hn : cs.length ≤ n) : ∃ h', Mm.mergeBlocks n h.first (h.setFree c.lo true) = some h' ∧
      Linked m h' (merged (Schemes.release [c.lo] cs)) := by
  have hmem : { c with free := true } ∈ Schemes.release [c.lo] cs :=
    List.mem_map.mpr ⟨c, hc, if_pos (List.mem_singleton_self _)⟩
  exact (hl.release ha hc).merge_first (apart_release ha) hm hmem
    (by rw [Schemes.release, List.length_map]; exact hn)

/-- Once the first block has been freed, the others are still occupied. -/
theorem Occupied.tail (ho : Occupied cs (p :: ps)) : Occupied (release [p] cs) ps := by
  obtain ⟨hp, hnd⟩ := List.nodup_cons.mp ho.nodup
  refine ⟨hnd, fun q hq => ?_⟩
  obtain ⟨d, hd, rfl, hocc⟩ := ho.block q (List.mem_cons_of_mem _ hq)
  refine ⟨d, mem_release hd fun hdp => hp ?_, rfl, hocc⟩
  rw [← List.mem_singleton.mp hdp]
  exact hq

theorem freeAll_linked (hl : Linked m h cs) (ha : Apart cs) (ho : Occupied cs ps) :
    Linked m (freeAll ps h) (release ps cs) ∧ (freeAll ps h).first = h.first := by
  induction ps generalizing h cs with
  | nil =>
    rw [release_nil]
    exact ⟨hl, rfl⟩
  | cons p ps ih =>
    obtain ⟨c, hc, rfl, -⟩ := ho.block p (List.mem_cons_self ..)
    have hrec := ih (hl.release ha hc) (apart_release ha) ho.tail
    rw [release_release] at hrec
    exact hrec

/-- From a merged chain on, freeing one by one comes to the merged chain with all of them
    released. -/
theorem freeEach_linked (hm : 0 < m) (hl : Linked m h (merged cs)) (ha : Apart cs)
    (ho : Occupied cs ps) {n : ℕ} (hn : cs.length ≤ n) :
    ∃ h', freeEach n ps h = some h' ∧ Linked m h' (merged (release ps cs)) := by
  induction ps generalizing h cs with
  | nil =>
    rw [release_nil]
    exact ⟨h, rfl, hl⟩
  | cons p ps ih =>
    obtain ⟨c, hc, rfl, hocc⟩ := ho.block p (List.mem_cons_self ..)
    have ham : Apart (merged cs) := ha.sublist (merged_lo_sublist cs)
    have hcm := mem_merged hc hocc
    obtain ⟨h₁, hrun, hl₁⟩ := hl.free_merge ham hm hcm ((length_merged_le cs).trans hn)
    rw [merged_release_merged ha.nodup hc hocc] at hl₁
    obtain ⟨h', hrest, hl'⟩ := ih hl₁ (apart_release ha) ho.tail
      (by rw [release, List.length_map]; exact hn)
    rw [release_release] at hl'
    refine ⟨h', ?_, hl'⟩
    rw [freeEach, hrun]
    exact hrest

theorem Occupied.perm (ho : Occupied cs ps) (hp : qs.Perm ps) : Occupied cs qs :=
  ⟨hp.nodup_iff.mpr ho.nodup, fun q hq => ho.block q (hp.mem_iff.mp hq)⟩

/-- CORRECT (order): freeing different occupied blocks one by one in any order, with a merge after
    each, comes to the same chain as freeing them all and merging once. -/
theorem free_order (hl : Linked 1 h cs) (ha : Apart cs) (hne : ps ≠ []) (ho : Occupied cs ps) :
    ∃ ds, (∃ fuel h', mergeBlocks fuel h.first (freeAll ps h) = some h' ∧ Linked 1 h' ds) ∧
      ∀ qs, qs.Perm ps → ∃ fuel h', freeEach fuel qs h = some h' ∧ Linked 1 h' ds := by
  have hm : 0 < 1 := by decide
  refine ⟨merged (release ps cs), ?_, fun qs hperm => ?_⟩
  · obtain ⟨p, hp⟩ := List.exists_mem_of_ne_nil ps hne
    obtain ⟨c, hc, -⟩ := ho.block p hp
    obtain ⟨hfree, hfirst⟩ := freeAll_linked hl ha ho
    obtain ⟨h', hrun, hl'⟩ :=
      hfree.merge_first (apart_release ha) hm (List.mem_map_of_mem hc) le_rfl
    rw [hfirst] at hrun
    exact ⟨_, h', hrun, hl'⟩
  · have hoq := ho.perm hperm
    rw [← release_perm hperm]
    cases qs with
    | nil => exact absurd hperm.nil_eq.symm hne
    | cons q qs =>
      -- the first merge makes a merged chain, and from there on it stays one
      obtain ⟨c, hc, rfl, -⟩ := hoq.block q (List.mem_cons_self ..)
      obtain ⟨h₁, hrun, hl₁⟩ := hl.free_merge ha hm hc le_rfl
      obtain ⟨h', hrest, hl'⟩ := freeEach_linked hm hl₁ (apart_release ha) hoq.tail
        (by rw [release, List.length_map])
      rw [release_release] at hl'
      refine ⟨cs.length, h', ?_, hl'⟩
      rw [freeEach, hrun]
      exact hrest

end freeing

/-- All three blocks are freed, the one in the middle last. -/
theorem free_order_threeBlocks : ∃ ds,
    (∃ fuel h', mergeBlocks fuel 4096 (freeAll [4096, 4128, 4160] threeBlocks) = some h' ∧
      Linked 1 h' ds) ∧
    ∃ fuel h', freeEach fuel [4160, 4096, 4128] threeBlocks = some h' ∧ Linked 1 h' ds := by
  have hfree : [4096, 4128, 4160] ≠ ([] : List ℕ) := by decide
  obtain ⟨ds, honce, heach⟩ := free_order (linked_threeBlocks (by decide))
    (linked_threeBlocks (m := 16) (by decide)).apart hfree ⟨by decide, by simp⟩
  exact ⟨ds, honce, heach [4160, 4096, 4128] (by decide)⟩

end OsLabs.Mm
