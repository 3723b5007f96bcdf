import OsLabs.Schemes.Coalesce
import OsLabs.Schemes.Walk
import OsLabs.Mm.Heap

/-! @src lab5_mm/ll-mm.c | name:linked | scheme:coalesce

    The list of blocks as a tiling of the range from `first` up to the break: a block is a cell, its
    header says where the cell ends and whether it is free. Nothing is said about alignment or, for
    a small `m`, about the length of a block; what the operations need is that the headers of
    different blocks do not overlap.

        is_free =    l ++ c :: r   ──▶  l ++ {c with free} :: r
        split_block  l ++ c :: r   ──▶  l ++ {c with hi} :: rest :: r
        merge_blocks l ++ c :: r   ──▶  l ++ coalesce c r -/

namespace OsLabs.Mm
open Schemes

/-- The heap after block `pb` has been cut at `pn`. -/
def Heap.cutAt (h : Heap) (pb pn : ℕ) : Heap :=
  ((h.setNext pn (h.next pb)).setFree pn true).setNext pb pn

/-- The blocks of the heap, with their addresses, `next` and flags, are `cs`: the first is at
    `first`, each is at least `m` bytes long and is followed by the one that its `next` points to,
    and the last ends at the break. -/
structure Linked (m : ℕ) (h : Heap) (cs : List Cell) : Prop where
  tiles : Tiles m h.first h.brk cs
  header : ∀ c ∈ cs, h.next c.lo = c.hi ∧ h.isFree c.lo = c.free
  first_pos : 0 < h.first
  brk_lt : h.brk < 2 ^ 64

/-- The headers of different blocks do not overlap. -/
def Apart (cs : List Cell) : Prop := (cs.map Cell.lo).Pairwise fun a b => a + metaSize ≤ b

section apart
variable {c x : Cell} {cs l r : List Cell}

theorem mem_of_mem (hx : c ∈ l ++ r) (d : Cell) : c ∈ l ++ d :: r := by
  simp only [List.mem_append, List.mem_cons] at hx ⊢
  tauto

theorem apart_of_tiles {a b : ℕ} (h : Tiles 16 a b cs) : Apart cs := by
  rw [Apart, List.pairwise_map]
  refine h.sorted.imp_of_mem fun {c d} hc _ hcd => ?_
  have hb := h.bounds hc
  have hle : c.lo + 16 ≤ d.lo := by omega
  exact hle

/-- Every other header lies before or behind that of `c`. -/
theorem Apart.lo_ne (h : Apart (l ++ c :: r)) (hx : x ∈ l ++ r) :
    x.lo + 16 ≤ c.lo ∨ c.lo + 16 ≤ x.lo := by
  rw [Apart, List.map_append, List.map_cons, List.pairwise_append, List.pairwise_cons] at h
  obtain ⟨-, ⟨hr, -⟩, hl⟩ := h
  rcases List.mem_append.mp hx with hxl | hxr
  · exact Or.inl (hl x.lo (List.mem_map_of_mem hxl) c.lo (List.mem_cons_self ..))
  · exact Or.inr (hr x.lo (List.mem_map_of_mem hxr))

theorem Apart.clear (h : Apart (l ++ c :: r)) (hx : x ∈ l ++ r) : Heap.Clear c.lo x.lo := by
  have hne := h.lo_ne hx
  have hcases : c.lo = x.lo ∨ c.lo + 16 ≤ x.lo ∨ x.lo + 16 ≤ c.lo := by omega
  exact hcases

theorem Apart.nodup (h : Apart cs) : (cs.map Cell.lo).Nodup := by
  refine List.Pairwise.imp (fun {a b} hab => ?_) h
  have hlt : a + 16 ≤ b := hab
  omega

end apart

namespace Linked
variable {m : ℕ} {h h' : Heap} {c d : Cell} {cs l r : List Cell}

theorem bounds (hl : Linked m h cs) (hmem : c ∈ cs) :
    0 < c.lo ∧ c.lo + m ≤ c.hi ∧ c.hi ≤ h.brk := by
  have hb := hl.tiles.bounds hmem
  have hf := hl.first_pos
  exact ⟨by omega, hb.2⟩

theorem apart (hl : Linked 16 h cs) : Apart cs := apart_of_tiles hl.tiles

theorem first_ne_null (hl : Linked m h cs) : h.first ≠ null := Nat.ne_of_gt hl.first_pos

/-- A block is neither NULL nor the break. -/
theorem lo_inside (hl : Linked m h cs) (hm : 0 < m) (hmem : c ∈ cs) :
    ¬(c.lo = null ∨ c.lo = h.brk) := by
  have hb := hl.bounds hmem
  rintro (hnull | hbrk)
  · have hzero : c.lo = 0 := hnull
    omega
  · omega

/-- Following `next` from `first` visits the blocks in order and ends at the break. -/
theorem walk (hl : Linked m h cs) (hm : 0 < m) : Walk h.next h.brk h.first (cs.map Cell.lo) := by
  have hwalk : ∀ {cs : List Cell} {a : ℕ}, Tiles m a h.brk cs →
      (∀ c ∈ cs, h.next c.lo = c.hi) → Walk h.next h.brk a (cs.map Cell.lo) := by
    intro cs
    induction cs with
    | nil => exact fun ht _ => ht
    | cons c cs ih =>
      rintro a ⟨rfl, hlen, ht⟩ hn
      have hend := ht.le
      refine ⟨rfl, by omega, ?_⟩
      rw [hn c (List.mem_cons_self ..)]
      exact ih ht (fun d hd => hn d (List.mem_cons_of_mem _ hd))
  exact hwalk hl.tiles (fun c hmem => (hl.header c hmem).1)

theorem dataSize (hl : Linked 16 h cs) (hmem : c ∈ cs) :
    h.blockDataSize c.lo = c.hi - c.lo - 16 := by
  have hb := hl.bounds hmem
  have hlt := hl.brk_lt
  have hn := (hl.header c hmem).1
  rw [Heap.blockDataSize_eq (by omega) (by omega) (by omega), hn]

/-- Replacing some of the blocks by others that tile the same range. -/
theorem splice (mid mid' : List Cell) (hl : Linked m h (l ++ (mid ++ r)))
    (htiles : ∀ a e, Tiles m a e mid → Tiles m a e mid')
    (hheader : ∀ x ∈ mid', h'.next x.lo = x.hi ∧ h'.isFree x.lo = x.free)
    (hkeep : ∀ x ∈ l ++ r, h'.next x.lo = h.next x.lo ∧ h'.isFree x.lo = h.isFree x.lo)
    (hfirst : h'.first = h.first) (hbrk : h'.brk = h.brk) : Linked m h' (l ++ (mid' ++ r)) := by
  refine ⟨?_, fun x hx => ?_, by rw [hfirst]; exact hl.first_pos, by rw [hbrk]; exact hl.brk_lt⟩
  · obtain ⟨a, htl, hmr⟩ := Tiles.append_iff.mp hl.tiles
    obtain ⟨e, hmid, htr⟩ := Tiles.append_iff.mp hmr
    rw [hfirst, hbrk]
    exact Tiles.append_iff.mpr ⟨a, htl, Tiles.append_iff.mpr ⟨e, htiles a e hmid, htr⟩⟩
  · have hcase : x ∈ mid' ∨ x ∈ l ++ r ∧ x ∈ l ++ (mid ++ r) := by
      simp only [List.mem_append] at hx ⊢
      tauto
    rcases hcase with hnew | ⟨hout, hold⟩
    · exact hheader x hnew
    · rw [(hkeep x hout).1, (hkeep x hout).2]
      exact hl.header x hold

/-! ### The operations -/

theorem setFree (hl : Linked m h (l ++ c :: r)) (ha : Apart (l ++ c :: r)) (free : Bool) :
    Linked m (h.setFree c.lo free) (l ++ { c with free := free } :: r) := by
  have hmem : c ∈ l ++ c :: r := by simp
  have hself : Heap.Clear c.lo c.lo := Or.inl rfl
  refine splice [c] [{ c with free := free }] hl (fun a e ht => ht) ?_ (fun x hx => ?_) rfl rfl
  · intro x hx
    rw [List.mem_singleton.mp hx]
    simp only
    rw [Heap.next_setFree hself, Heap.isFree_setFree hself, if_pos rfl]
    exact ⟨(hl.header c hmem).1, rfl⟩
  · have hclear := ha.clear hx
    have hne := ha.lo_ne hx
    rw [Heap.next_setFree hclear, Heap.isFree_setFree hclear, if_neg (by omega)]
    exact ⟨rfl, rfl⟩

theorem cutAt (hl : Linked 16 h (l ++ c :: r)) (pn : ℕ) (hlo : c.lo + 16 ≤ pn)
    (hhi : pn + 16 ≤ c.hi) : Linked 16 (h.cutAt c.lo pn)
      (l ++ { c with hi := pn } :: { lo := pn, hi := c.hi, free := true } :: r) := by
  have hmem : c ∈ l ++ c :: r := by simp
  have hb := hl.bounds hmem
  have hlt := hl.brk_lt
  obtain ⟨hnext, hfree⟩ := hl.header c hmem
  have hread : ∀ x, Heap.Clear c.lo x → Heap.Clear pn x → (h.cutAt c.lo pn).next x =
      (if x = c.lo then pn else if x = pn then c.hi else h.next x) ∧
      (h.cutAt c.lo pn).isFree x = if x = pn then true else h.isFree x := by
    intro x hcx hpx
    rw [Heap.cutAt, Heap.next_setNext hcx (by omega), Heap.next_setFree hpx,
      Heap.next_setNext hpx (by omega), Heap.isFree_setNext hcx, Heap.isFree_setFree hpx,
      Heap.isFree_setNext hpx, hnext]
    exact ⟨rfl, rfl⟩
  refine splice [c] [{ c with hi := pn }, { lo := pn, hi := c.hi, free := true }] hl ?_ ?_
    (fun x hx => ?_) rfl rfl
  · rintro a e ⟨rfl, hm, rfl⟩
    exact ⟨rfl, hlo, rfl, hhi, rfl⟩
  · intro x hx
    rw [List.mem_cons, List.mem_singleton] at hx
    rcases hx with rfl | rfl
    · obtain ⟨h1, h2⟩ := hread c.lo (Or.inl rfl) (Or.inr (Or.inr hlo))
      rw [if_pos rfl] at h1
      rw [if_neg (by omega)] at h2
      exact ⟨h1, h2.trans hfree⟩
    · obtain ⟨h1, h2⟩ := hread pn (Or.inr (Or.inl hlo)) (Or.inl rfl)
      rw [if_neg (by omega), if_pos rfl] at h1
      rw [if_pos rfl] at h2
      exact ⟨h1, h2⟩
  · have hne : x.lo + 16 ≤ c.lo ∨ c.hi ≤ x.lo := (List.mem_append.mp hx).imp
      (fun hxl => hl.tiles.before hxl) (fun hxr => hl.tiles.after hxr)
    have hpx : pn = x.lo ∨ pn + 16 ≤ x.lo ∨ x.lo + 16 ≤ pn := by omega
    obtain ⟨h1, h2⟩ := hread x.lo (hl.apart.clear hx) hpx
    rw [if_neg (by omega), if_neg (by omega)] at h1
    rw [if_neg (by omega)] at h2
    exact ⟨h1, h2⟩

theorem join (hl : Linked m h (l ++ c :: d :: r)) (ha : Apart (l ++ c :: d :: r)) :
    Linked m (h.setNext c.lo d.hi) (l ++ { c with hi := d.hi } :: r) := by
  have hmem : c ∈ l ++ c :: d :: r := by simp
  have hmemd : d ∈ l ++ c :: d :: r := by simp
  have hself : Heap.Clear c.lo c.lo := Or.inl rfl
  have hd := hl.bounds hmemd
  have hlt := hl.brk_lt
  refine splice [c, d] [{ c with hi := d.hi }] hl ?_ ?_ (fun x hx => ?_) rfl rfl
  · rintro a e ⟨rfl, hm, hcd, hmd, he⟩
    have hlen : c.lo + m ≤ d.hi := by omega
    exact ⟨rfl, hlen, he⟩
  · intro x hx
    rw [List.mem_singleton.mp hx]
    simp only
    rw [Heap.next_setNext hself (by omega), Heap.isFree_setNext hself, if_pos rfl]
    exact ⟨rfl, (hl.header c hmem).2⟩
  · have hx' : x ∈ l ++ d :: r := mem_of_mem hx d
    have hclear := ha.clear hx'
    have hne := ha.lo_ne hx'
    rw [Heap.next_setNext hclear (by omega), Heap.isFree_setNext hclear, if_neg (by omega)]
    exact ⟨rfl, rfl⟩

/-! ### `split_block` -/

section split
variable {size : ℕ}

/-- A size with its meta block does not wrap. -/
theorem size_wrap (hsize : size + 16 < 2 ^ 64) : (size + metaSize) % 2 ^ 64 = size + 16 := by
  have hmeta : metaSize = 16 := rfl
  rw [hmeta]
  exact Nat.mod_eq_of_lt hsize

/-- The block is cut where `size` bytes, its header and the padding end, or left alone when the rest
    is negative as a signed number. -/
theorem splitBlock_eq (hl : Linked 16 h (l ++ c :: r)) (ha : c.lo % 16 = 0)
    (hsize : size < h.blockDataSize c.lo) : ∃ t, t = (size + 31) / 16 * 16 ∧
      (splitBlock c.lo size h).2 = ((c.hi - c.lo - 16 : ℕ) - t : ℤ).bmod (2 ^ 64) ∧
      ((splitBlock c.lo size h).2 < 0 → (splitBlock c.lo size h).1 = h) ∧
      (0 ≤ (splitBlock c.lo size h).2 → c.lo + t + 16 ≤ c.hi ∧
        (splitBlock c.lo size h).1 = h.cutAt c.lo (c.lo + t)) := by
  have hmem : c ∈ l ++ c :: r := by simp
  have hb := hl.bounds hmem
  have hlt := hl.brk_lt
  rw [hl.dataSize hmem] at hsize
  obtain ⟨t, ht⟩ : ∃ t, t = (size + 31) / 16 * 16 := ⟨_, rfl⟩
  have halign : alignedSize ((size + metaSize) % 2 ^ 64) = t := by
    rw [size_wrap (by omega), alignedSize_eq (by omega), ht]
  have hrest : (splitBlock c.lo size h).2 = ((c.hi - c.lo - 16 : ℕ) - t : ℤ).bmod (2 ^ 64) := by
    rw [splitBlock, halign, hl.dataSize hmem]
    split <;> rfl
  refine ⟨t, ht, hrest, fun hneg => ?_, fun hpos => ?_⟩
  · rw [splitBlock, halign, hl.dataSize hmem, if_neg (by rw [← hrest]; omega)]
  · rw [hrest] at hpos
    -- a block that is too small leaves a small negative rest
    have hroom : c.lo + t + 16 ≤ c.hi := by
      by_contra hno
      rw [Int.bmod_eq_of_le (by omega) (by omega)] at hpos
      omega
    have hpn : (c.lo + t) % 2 ^ 64 = c.lo + t := Nat.mod_eq_of_lt (by omega)
    refine ⟨hroom, ?_⟩
    rw [splitBlock, halign, hl.dataSize hmem, if_pos hpos, hpn]
    rfl

end split

/-! ### The loop of `merge_blocks` -/

section loop
variable (hm : 0 < m)
include hm

/-- One trip, standing at `c` with `d` behind it. -/
theorem mergeTrip_eq (hl : Linked m h (l ++ c :: d :: r)) : mergeTrip h.brk (h, c.lo) =
    if c.free && d.free then .inl (h.setNext c.lo d.hi, c.lo) else .inl (h, d.lo) := by
  obtain ⟨hcn, hcf⟩ := hl.header c (by simp)
  obtain ⟨hdn, hdf⟩ := hl.header d (by simp)
  have htile := hl.tiles.cut.2
  have hd : d.lo = c.hi := htile.2.2.1
  have hlt : d.lo ≠ h.brk := by
    have := htile.2.2.bounds (List.mem_cons_self ..)
    omega
  have hgo : ¬(h.next c.lo = h.brk) := by rw [hcn, ← hd]; exact hlt
  rw [mergeTrip, if_neg hgo]
  simp only [hcn, ← hd, hcf, hdf, hdn]

omit hm in
/-- At the last block the loop stops. -/
theorem mergeTrip_last (hl : Linked m h (l ++ [c])) : mergeTrip h.brk (h, c.lo) = .inr h := by
  have hend : c.hi = h.brk := (hl.tiles.cut.2).2.2
  exact if_pos ((hl.header c (by simp)).1.trans hend)

/-- Standing at `c`, the loop coalesces from there on, and writes only `next` fields of free
    blocks. -/
theorem mergeTrip_iter (r : List Cell) : ∀ {h : Heap} {l : List Cell} {c : Cell},
    Linked m h (l ++ c :: r) → Apart (l ++ c :: r) → ∃ mem,
      iter (mergeTrip h.brk) (r.length + 1) (h, c.lo) = some { h with mem := mem } ∧
        Linked m { h with mem := mem } (l ++ coalesce c r) ∧
        ∀ a, (∀ x ∈ c :: r, x.free = true → a < x.lo + 8 ∨ x.lo + 16 ≤ a) → mem a = h.mem a := by
  induction r with
  | nil => exact fun {h l c} hl _ => ⟨h.mem, iter_inr (mergeTrip_last hl), hl, fun _ _ => rfl⟩
  | cons d r ih =>
    intro h l c hl ha
    have hstep := mergeTrip_eq hm hl
    cases hfree : c.free && d.free with
    | true =>
      -- both free: the link skips `d`
      have hc : c.free = true := (Bool.and_eq_true_iff.mp hfree).1
      have ha' : Apart (l ++ { c with hi := d.hi } :: r) := by
        rw [Apart, List.map_append] at ha ⊢
        exact ha.sublist ((List.Sublist.refl _).append
          ((List.sublist_cons_self d.lo _).cons_cons c.lo))
      rw [hfree, if_pos rfl] at hstep
      obtain ⟨mem, hrun, hlinked, hframe⟩ := ih (hl.join ha) ha'
      refine ⟨mem, (iter_inl hstep).trans hrun, ?_, fun a hout => ?_⟩
      · rw [coalesce_join hfree]
        exact hlinked
      · rw [hframe a fun x hx hxf => ?_]
        · exact Heap.setNext_mem (hout c (List.mem_cons_self ..) hc)
        · rcases List.mem_cons.mp hx with rfl | hx
          · exact hout c (List.mem_cons_self ..) hc
          · exact hout x (List.mem_cons_of_mem _ (List.mem_cons_of_mem _ hx)) hxf
    | false =>
      rw [hfree, if_neg Bool.false_ne_true] at hstep
      have happ : l ++ c :: d :: r = (l ++ [c]) ++ d :: r := by rw [List.append_assoc]; rfl
      rw [happ] at hl ha
      obtain ⟨mem, hrun, hlinked, hframe⟩ := ih hl ha
      refine ⟨mem, (iter_inl hstep).trans hrun, ?_, fun a hout => hframe a fun x hx =>
        hout x (List.mem_cons_of_mem _ hx)⟩
      rw [coalesce_keep hfree]
      rw [List.append_assoc] at hlinked
      exact hlinked

/-- Where nothing is left to merge, the loop changes nothing. -/
theorem mergeTrip_settled (r : List Cell) : ∀ {l : List Cell} {c : Cell},
    Linked m h (l ++ c :: r) → Settled (c :: r) →
    iter (mergeTrip h.brk) (r.length + 1) (h, c.lo) = some h := by
  induction r with
  | nil => exact fun hl _ => iter_inr (mergeTrip_last hl)
  | cons d r ih =>
    intro l c hl hs
    obtain ⟨hcd, hrest⟩ := List.isChain_cons_cons.mp hs
    have hstep := mergeTrip_eq hm hl
    rw [if_neg (by simpa using hcd)] at hstep
    have happ : l ++ c :: d :: r = (l ++ [c]) ++ d :: r := by rw [List.append_assoc]; rfl
    rw [happ] at hl
    rw [List.length_cons, iter_inl hstep]
    exact ih hl hrest

theorem mergeBlocks (hl : Linked m h (l ++ c :: r)) (ha : Apart (l ++ c :: r)) : ∃ mem,
    mergeBlocks (r.length + 1) c.lo h = some { h with mem := mem } ∧
      Linked m { h with mem := mem } (l ++ coalesce c r) ∧
      ∀ a, (∀ x ∈ c :: r, x.free = true → a < x.lo + 8 ∨ x.lo + 16 ≤ a) → mem a = h.mem a := by
  obtain ⟨mem, hrun, hrest⟩ := mergeTrip_iter hm r hl ha
  refine ⟨mem, ?_, hrest⟩
  rw [Mm.mergeBlocks, if_neg (hl.lo_inside hm (by simp)), hrun]

theorem mergeBlocks_settled (hl : Linked m h (l ++ c :: r)) (hs : Settled (c :: r)) :
    Mm.mergeBlocks (r.length + 1) c.lo h = some h := by
  rw [Mm.mergeBlocks, if_neg (hl.lo_inside hm (by simp)), mergeTrip_settled hm r hl hs]

end loop

/-! ### The traversals -/

theorem sizeTrip_iter {free : Bool} : ∀ {cs : List Cell} {a s : ℕ}, Tiles 16 a h.brk cs →
    (∀ c ∈ cs, h.next c.lo = c.hi ∧ h.isFree c.lo = c.free ∧
      h.blockDataSize c.lo = c.hi - c.lo - 16) →
    s + payload 16 (fun c => c.free == free) cs < 2 ^ 64 →
    iter (sizeTrip h free) (cs.length + 1) (a, s) =
      some (s + payload 16 (fun c => c.free == free) cs) := by
  intro cs
  induction cs with
  | nil =>
    intro a s ht _ _
    exact iter_inr (if_pos ht)
  | cons c cs ih =>
    rintro a s ⟨rfl, hm, ht⟩ hh hlt
    have hle : c.lo + 16 ≤ c.hi := hm
    have hend := ht.le
    obtain ⟨hn, hf, hsize⟩ := hh c (List.mem_cons_self ..)
    have hstep : sizeTrip h free (c.lo, s) = .inl (c.hi,
        if c.free = free then (s + (c.hi - c.lo - 16)) % 2 ^ 64 else s) := by
      have hgo : ¬(c.lo = h.brk) := by omega
      rw [sizeTrip, if_neg hgo]
      simp only [hn, hf, hsize]
    rw [List.length_cons, iter_inl hstep]
    have hpay : payload 16 (fun c => c.free == free) (c :: cs) =
        (if c.free = free then c.hi - c.lo - 16 else 0) +
          payload 16 (fun c => c.free == free) cs := by
      rw [payload, payload, List.filter_cons]
      by_cases hp : c.free = free
      · simp [hp]
      · simp [hp]
    rw [hpay] at hlt ⊢
    have hsum : (if c.free = free then (s + (c.hi - c.lo - 16)) % 2 ^ 64 else s) =
        s + if c.free = free then c.hi - c.lo - 16 else 0 := by
      split
      case isTrue hp =>
        rw [if_pos hp] at hlt
        exact Nat.mod_eq_of_lt (by omega)
      case isFalse => rfl
    rw [hsum, ih ht (fun d hd => hh d (List.mem_cons_of_mem _ hd)) (by omega), Nat.add_assoc]

/-- `used_size` and `unused_size` add up the payloads of their kind. -/
theorem sizeWhere_eq (hl : Linked 16 h cs) (free : Bool) : sizeWhere free (cs.length + 1) h =
    some (payload 16 (fun c => c.free == free) cs) := by
  have hlt := hl.brk_lt
  have hsum := hl.tiles.payload_sum (fun c => c.free == free)
  rw [sizeWhere, if_neg hl.first_ne_null, sizeTrip_iter hl.tiles
    (fun c hmem => ⟨(hl.header c hmem).1, (hl.header c hmem).2, hl.dataSize hmem⟩) (by omega),
    Nat.zero_add]

/-- `find_block` finds the blocks of the chain and nothing else. -/
theorem findBlock_eq (hl : Linked m h cs) (hm : 0 < m) (p : ℕ) :
    findBlock (cs.length + 1) p h =
      some (if dataToBlock p ∈ cs.map Cell.lo then dataToBlock p else null) := by
  have hloop : ∀ {cs : List Cell} {a : ℕ}, Tiles m a h.brk cs →
      (∀ c ∈ cs, h.next c.lo = c.hi) → iter (findTrip h (dataToBlock p)) (cs.length + 1) a =
        some (if dataToBlock p ∈ cs.map Cell.lo then dataToBlock p else null) := by
    intro cs
    induction cs with
    | nil => exact fun ht _ => iter_inr (if_pos ht)
    | cons c cs ih =>
      rintro a ⟨rfl, hle, ht⟩ hn
      have hend := ht.le
      have hgo : ¬(c.lo = h.brk) := by omega
      rcases eq_or_ne c.lo (dataToBlock p) with heq | hne
      · have hstep : findTrip h (dataToBlock p) c.lo = .inr c.lo := by
          rw [findTrip, if_neg hgo, if_pos heq]
        rw [List.length_cons, iter_inr hstep, if_pos (by simp [heq]), heq]
      · have hstep : findTrip h (dataToBlock p) c.lo = .inl c.hi := by
          rw [findTrip, if_neg hgo, if_neg hne, hn c (List.mem_cons_self ..)]
        rw [List.length_cons, iter_inl hstep,
          ih ht (fun d hd => hn d (List.mem_cons_of_mem _ hd))]
        simp only [List.map_cons, List.mem_cons, hne.symm, false_or]
  rw [findBlock, if_neg hl.first_ne_null]
  exact hloop hl.tiles (fun c hmem => (hl.header c hmem).1)

end Linked

end OsLabs.Mm
