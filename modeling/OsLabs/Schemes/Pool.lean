import Mathlib.Data.Set.Basic
import OsLabs.Schemes.Walk

/-! scheme:pool | linked allocation: files and a free list threaded through one table

    One table `nx` gives the successor of every block. The free list hangs from the reserved slot
    `head` and ends in `nil`; the chain of a file starts where its directory says and ends in
    `eof`. `Pool` says that the free list and the chains are walks over pairwise different blocks
    that they do not share. `seek` is the allocate-on-demand navigation: follow the chain for `n`
    links, appending a block popped off the free list whenever the chain ends. Its effect is one
    statement (`seek_some`): the chain grows by a prefix of the free list, and nothing else moves.
    Every change to one file is then an instance of `Pool.replace`. -/

namespace Schemes
variable {α ι : Type*}

/-- Among different blocks, changing the contents of one changes one place in the contents. -/
theorem map_eq_modify {β : Type*} {g g' : α → β} {p : β → β} {y : α} : ∀ {l : List α} {k : ℕ},
    l.Nodup → l[k]? = some y → g' y = p (g y) → (∀ x ∈ l, x ≠ y → g' x = g x) →
    l.map g' = (l.map g).modify k p
  | x :: l, 0, hn, hk, hy, hne => by
      obtain rfl : x = y := by simpa using hk
      rw [List.map_cons, List.map_cons, List.modify_zero_cons, hy, List.map_congr_left]
      intro z hz
      exact hne z (List.mem_cons_of_mem _ hz) (by rintro rfl; exact (List.nodup_cons.mp hn).1 hz)
  | x :: l, k + 1, hn, hk, hy, hne => by
      obtain ⟨hx, hl⟩ := List.nodup_cons.mp hn
      rw [List.getElem?_cons_succ] at hk
      have hxy : x ≠ y := by rintro rfl; exact hx (List.mem_of_getElem? hk)
      rw [List.map_cons, List.map_cons, List.modify_succ_cons, hne x (List.mem_cons_self ..) hxy,
        map_eq_modify hl hk hy fun z hz => hne z (List.mem_cons_of_mem _ hz)]

/-! ### The table and its navigation -/

section table
variable [DecidableEq α]

/-- The table after the first free block has been popped and closed with `eof`. -/
def pop (head eof : α) (nx : α → α) : α → α :=
  Function.update (Function.update nx head (nx (nx head))) (nx head) eof

section pop
variable {head nil eof b : α} {nx : α → α} {fl : List α}

theorem pop_eq (h : nx head = b) :
    pop head eof nx = Function.update (Function.update nx head (nx b)) b eof := by rw [pop, h]

theorem pop_out (h : nx head = b) {x : α} (hx : x ≠ head) (hb : x ≠ b) :
    pop head eof nx x = nx x := by
  rw [pop_eq h, Function.update_of_ne hb, Function.update_of_ne hx]

theorem pop_block (h : nx head = b) : pop head eof nx b = eof := by
  rw [pop_eq h, Function.update_self]

theorem pop_head (h : nx head = b) (hb : head ≠ b) : pop head eof nx head = nx b := by
  rw [pop_eq h, Function.update_of_ne hb, Function.update_self]

/-- Popping leaves the rest of the free list. -/
theorem pop_free (eof : α) (h : Walk nx nil (nx head) (b :: fl)) (hn : (head :: b :: fl).Nodup) :
    Walk (pop head eof nx) nil (pop head eof nx head) fl := by
  obtain ⟨hhead, hb⟩ := List.nodup_cons.mp hn
  rw [List.mem_cons, not_or] at hhead
  rw [pop_head h.head_eq hhead.1]
  refine h.tail.congr (fun x hx => pop_out h.head_eq ?_ ?_)
  · rintro rfl; exact hhead.2 hx
  · rintro rfl; exact (List.nodup_cons.mp hb).1 hx

end pop

section seek
variable {head nil eof : α} {nx : α → α} {crt b : α} {fl : List α}

/-- The table after one block has been popped and appended to `crt`. -/
def extend (head eof : α) (nx : α → α) (crt : α) : α → α :=
  Function.update (pop head eof nx) crt (nx head)

theorem extend_self (h : nx head = b) : extend head eof nx crt crt = b := by
  rw [extend, Function.update_self, h]

theorem extend_out (h : nx head = b) {x : α} (hx : x ≠ head) (hc : x ≠ crt) (hb : x ≠ b) :
    extend head eof nx crt x = nx x := by
  rw [extend, Function.update_of_ne hc, pop_out h hx hb]

/-- Appending a block leaves the rest of the free list, and the block ends the chain. -/
theorem extend_walks (hf : Walk nx nil (nx head) (b :: fl)) (hn : (head :: crt :: b :: fl).Nodup)
    (he : b ≠ eof) : Walk (extend head eof nx crt) nil (extend head eof nx crt head) fl ∧
      Walk (extend head eof nx crt) eof b [b] := by
  simp only [List.nodup_cons, List.mem_cons, not_or] at hn
  obtain ⟨⟨hhc, hhb, hhf⟩, ⟨hcb, hcf⟩, hbf, hfl⟩ := hn
  have hpop := pop_free eof hf (by
    simp only [List.nodup_cons, List.mem_cons, not_or]; exact ⟨⟨hhb, hhf⟩, hbf, hfl⟩)
  constructor
  · rw [extend, Function.update_of_ne hhc]
    exact hpop.congr (fun x hx => Function.update_of_ne (by rintro rfl; exact hcf hx) ..)
  · refine ⟨rfl, he, ?_⟩
    rw [extend, Function.update_of_ne (fun h => hcb h.symm), pop_block hf.head_eq]; rfl

/-- Follow `n` links from `crt`, appending a free block wherever the chain ends; `none` when the
    free list runs out. -/
def seek (head nil eof : α) (nx : α → α) (crt : α) : ℕ → (α → α) × Option α
  | 0 => (nx, some crt)
  | n + 1 =>
    if nx crt ≠ eof then seek head nil eof nx (nx crt) n
    else if nx head = nil then (nx, none)
    else seek head nil eof (extend head eof nx crt) (nx head) n

theorem seek_follow {next : α} {n : ℕ} (h : nx crt = next) (hne : next ≠ eof) :
    seek head nil eof nx crt (n + 1) = seek head nil eof nx next n := by
  rw [seek, if_pos (by rw [h]; exact hne), h]

theorem seek_extend {n : ℕ} (h : nx crt = eof) (hb : nx head = b) (hne : b ≠ nil) :
    seek head nil eof nx crt (n + 1) = seek head nil eof (extend head eof nx crt) b n := by
  rw [seek, if_neg (not_not.mpr h), if_neg (by rw [hb]; exact hne), hb]

theorem seek_full {n : ℕ} (h : nx crt = eof) (hb : nx head = nil) :
    seek head nil eof nx crt (n + 1) = (nx, none) := by
  rw [seek, if_neg (not_not.mpr h), if_pos hb]

/-- A table whose free list is a walk inside `S`, and whose links lead from `S` back into `S` or to
    `eof`. That is all `seek` needs to stay inside `S`, whatever the chains look like. -/
structure Closed (S : Set α) (head nil eof : α) (nx : α → α) (fl : List α) : Prop where
  free : Walk nx nil (nx head) fl
  nodup : (head :: fl).Nodup
  sub : ∀ x ∈ head :: nil :: fl, x ∈ S
  step : ∀ x ∈ S, nx x ∈ S ∨ nx x = eof
  eof_out : eof ∉ S

namespace Closed
variable {S : Set α}

omit [DecidableEq α] in
/-- Where a chain ends, there is neither a free block nor the head of the free list. -/
theorem end_not_free (h : Closed S head nil eof nx fl) (hend : nx crt = eof) :
    crt ∉ head :: fl := by
  have hsub : ∀ x, x = nil ∨ x ∈ fl → x ∈ S := by
    rintro x (rfl | hx)
    · exact h.sub x (by simp)
    · exact h.sub x (by simp [hx])
  intro hmem
  apply h.eof_out
  rw [← hend]
  rcases List.mem_cons.mp hmem with rfl | hcf
  · cases fl with
    | nil => exact hsub _ (Or.inl h.free)
    | cons b fl => exact hsub _ (Or.inr (by rw [h.free.head_eq]; simp))
  · exact hsub _ ((h.free.step_mem hcf).symm)

theorem pop (h : Closed S head nil eof nx (b :: fl)) :
    Closed S head nil eof (Schemes.pop head eof nx) fl := by
  have hfree := pop_free eof h.free h.nodup
  have hnd := h.nodup.sublist ((List.sublist_cons_self b fl).cons_cons head)
  refine ⟨hfree, hnd, fun x hx => h.sub x ?_, fun x hx => ?_, h.eof_out⟩
  · simp only [List.mem_cons] at hx ⊢
    tauto
  · -- only the links of `head` and `b` have changed
    rcases eq_or_ne x head with rfl | hxh
    · cases fl with
      | nil =>
        have hnil : Schemes.pop x eof nx x = nil := hfree
        exact Or.inl (by rw [hnil]; exact h.sub nil (by simp))
      | cons c fl => exact Or.inl (by rw [hfree.head_eq]; exact h.sub c (by simp))
    · rcases eq_or_ne x b with rfl | hxb
      · exact Or.inr (pop_block h.free.head_eq)
      · rw [pop_out h.free.head_eq hxh hxb]; exact h.step x hx

theorem link (h : Closed S head nil eof nx fl) (hend : nx crt = eof) (hb : b ∈ S) :
    Closed S head nil eof (Function.update nx crt b) fl := by
  have hout := h.end_not_free hend
  rw [List.mem_cons, not_or] at hout
  have hkeep : ∀ x, x ≠ crt → Function.update nx crt b x = nx x :=
    fun x hx => Function.update_of_ne hx ..
  refine ⟨?_, h.nodup, h.sub, fun x hx => ?_, h.eof_out⟩
  · rw [hkeep head (fun he => hout.1 he.symm)]
    exact h.free.congr (fun x hx => hkeep x (by rintro rfl; exact hout.2 hx))
  · rcases eq_or_ne x crt with rfl | hxc
    · rw [Function.update_self]; exact Or.inl hb
    · rw [hkeep x hxc]; exact h.step x hx

theorem extend (h : Closed S head nil eof nx (b :: fl)) (hend : nx crt = eof) :
    Closed S head nil eof (extend head eof nx crt) fl := by
  have hout := h.end_not_free hend
  simp only [List.mem_cons, not_or] at hout
  rw [Schemes.extend]
  refine h.pop.link ?_ (by rw [h.free.head_eq]; exact h.sub b (by simp))
  rw [pop_out h.free.head_eq hout.1 hout.2.1, hend]

omit [DecidableEq α] in
/-- A free list that ends at its own head, together with one chain, makes a closed table. -/
theorem of_walks {a : α} {l : List α} (hf : Walk nx head (nx head) fl) (hc : Walk nx eof a l)
    (hnd : (head :: (l ++ fl)).Nodup) (he : eof ∉ head :: (l ++ fl)) :
    Closed {x | x ∈ head :: (l ++ fl)} head head eof nx fl := by
  refine ⟨hf, hnd.sublist ((List.sublist_append_right l fl).cons_cons head), ?_, ?_, he⟩
  · intro x hx
    simp only [Set.mem_ofPred_eq, List.mem_cons, List.mem_append] at hx ⊢
    tauto
  · intro x (hx : x ∈ head :: (l ++ fl))
    simp only [Set.mem_ofPred_eq, List.mem_cons, List.mem_append] at hx ⊢
    rcases hx with rfl | hx | hx
    · cases fl with
      | nil => exact Or.inl (Or.inl hf)
      | cons b fl => exact Or.inl (Or.inr (Or.inr (by rw [hf.head_eq]; simp)))
    · exact (hc.step_mem hx).imp (fun h => Or.inr (Or.inl h)) id
    · exact Or.inl ((hf.step_mem hx).elim (fun h => Or.inr (Or.inr h)) Or.inl)

end Closed

/-- What `seek` has done to a chain `crt :: post` and a free list `fl` after using `k` blocks. -/
structure Grown (head nil eof : α) (nx nx' : α → α) (crt : α) (post fl : List α) (k : ℕ) :
    Prop where
  free : Walk nx' nil (nx' head) (fl.drop k)
  chain : Walk nx' eof crt (crt :: post ++ fl.take k)
  frame : ∀ x, x ≠ head → x ∉ crt :: post → x ∉ fl → nx' x = nx x

omit [DecidableEq α] in
/-- A chain has grown as its rest has. -/
theorem Grown.follow {nx' : α → α} {next : α} {post : List α} {k : ℕ}
    (hg : Grown head nil eof nx nx' next post fl k)
    (hcrt : nx crt = next) (hne : crt ≠ eof) (hhead : crt ≠ head) (hpost : crt ∉ next :: post)
    (hfl : crt ∉ fl) : Grown head nil eof nx nx' crt (next :: post) fl k := by
  have hkeep : nx' crt = next := (hg.frame crt hhead hpost hfl).trans hcrt
  refine ⟨hg.free, ⟨rfl, hne, by rw [hkeep]; exact hg.chain⟩, fun x hx hxc hxf => ?_⟩
  exact hg.frame x hx (fun h => hxc (List.mem_cons_of_mem _ h)) hxf

/-- A chain that ends here has grown by the block that was linked and as that one has. -/
theorem Grown.linked {nx' : α → α} {b : α} {k : ℕ}
    (hg : Grown head nil eof (extend head eof nx crt) nx' b [] fl k) (hb : nx head = b)
    (hne : crt ≠ eof) (hhead : crt ≠ head) (hcb : crt ≠ b) (hcf : crt ∉ fl) :
    Grown head nil eof nx nx' crt [] (b :: fl) (k + 1) := by
  have hkeep : nx' crt = b :=
    (hg.frame crt hhead (by simpa using hcb) hcf).trans (extend_self hb)
  refine ⟨hg.free, ⟨rfl, hne, by rw [hkeep]; exact hg.chain⟩, fun x hx hxc hxf => ?_⟩
  rw [List.mem_singleton] at hxc
  rw [List.mem_cons, not_or] at hxf
  rw [hg.frame x hx (by simpa using hxf.1) hxf.2, extend_out hb hx hxc hxf.1]

/-- With enough blocks, `seek` stands at position `n` of the chain followed by the free list, and
    the chain has grown by just the blocks it was short of. -/
theorem seek_some : ∀ {n : ℕ} {nx : α → α} {crt : α} {post fl : List α},
    Walk nx nil (nx head) fl → Walk nx eof crt (crt :: post) →
    (head :: (crt :: post ++ fl)).Nodup → eof ∉ fl → n ≤ post.length + fl.length →
    ∃ nx' y, seek head nil eof nx crt n = (nx', some y) ∧ (crt :: post ++ fl)[n]? = some y ∧
      Grown head nil eof nx nx' crt post fl (n - post.length)
  | 0, nx, crt, post, fl, hf, hc, _, _, _ =>
      ⟨nx, crt, rfl, rfl, by
        rw [Nat.zero_sub]
        exact ⟨hf, by rw [List.take_zero, List.append_nil]; exact hc, fun _ _ _ _ => rfl⟩⟩
  | n + 1, nx, crt, next :: post, fl, hf, hc, hn, he, hlen => by
      -- the chain goes on: follow the link
      have hcrt : nx crt = next := hc.tail.head_eq
      obtain ⟨hhead, hnd⟩ := List.nodup_cons.mp hn
      obtain ⟨hout, hnd'⟩ := List.nodup_cons.mp hnd
      simp only [List.cons_append, List.mem_cons, not_or] at hhead
      rw [List.append_eq, List.mem_append, not_or] at hout
      have hn' : (head :: (next :: post ++ fl)).Nodup :=
        List.nodup_cons.mpr ⟨by simpa using hhead.2, hnd'⟩
      obtain ⟨nx', y, hs, hy, hg⟩ := seek_some (n := n) hf ⟨rfl, hc.tail.2⟩ hn' he (by
        rw [List.length_cons] at hlen; omega)
      refine ⟨nx', y, by rw [seek_follow hcrt hc.tail.2.1, hs], by simpa using hy, ?_⟩
      rw [List.length_cons, Nat.add_sub_add_right]
      exact hg.follow hcrt hc.2.1 (fun h => hhead.1 h.symm) hout.1 hout.2
  | n + 1, nx, crt, [], b :: fl, hf, hc, hn, he, hlen => by
      -- the chain ends here: pop `b` and link it
      rw [List.mem_cons, not_or] at he
      obtain ⟨hf', hc'⟩ := extend_walks hf hn (fun h => he.1 h.symm)
      simp only [List.cons_append, List.nil_append, List.nodup_cons, List.mem_cons, not_or] at hn
      obtain ⟨⟨hhc, hhb, hhf⟩, ⟨hcb, hcf⟩, hbf, hfl⟩ := hn
      have hn' : (head :: ([b] ++ fl)).Nodup := by
        simp only [List.cons_append, List.nil_append, List.nodup_cons, List.mem_cons, not_or]
        exact ⟨⟨hhb, hhf⟩, hbf, hfl⟩
      have hlen' : n ≤ ([] : List α).length + fl.length := by
        simp only [List.length_nil, List.length_cons] at *
        omega
      obtain ⟨nx', y, hs, hy, hg⟩ := seek_some hf' hc' hn' he.2 hlen'
      refine ⟨nx', y, by rw [seek_extend hc.tail hf.head_eq hf.2.1, hs], by simpa using hy, ?_⟩
      rw [List.length_nil, Nat.sub_zero] at hg ⊢
      exact hg.linked hf.head_eq hc.2.1 (fun h => hhc h.symm) hcb hcf
  | n + 1, _, _, [], [], _, _, _, _, hlen => by simp at hlen

/-- With too few blocks, `seek` fails. -/
theorem seek_none : ∀ {n : ℕ} {nx : α → α} {crt : α} {post fl : List α},
    Walk nx nil (nx head) fl → Walk nx eof crt (crt :: post) →
    (head :: (crt :: post ++ fl)).Nodup → eof ∉ fl → post.length + fl.length < n →
    (seek head nil eof nx crt n).2 = none
  | n + 1, nx, crt, next :: post, fl, hf, hc, hn, he, hlen => by
      rw [List.length_cons] at hlen
      rw [seek_follow hc.tail.head_eq hc.tail.2.1]
      have hc' : Walk nx eof next (next :: post) := ⟨rfl, hc.tail.2⟩
      refine seek_none hf hc' ?_ he (by omega)
      exact hn.sublist ((List.sublist_cons_self crt _).cons_cons head)
  | n + 1, nx, crt, [], b :: fl, hf, hc, hn, he, hlen => by
      rw [List.mem_cons, not_or] at he
      obtain ⟨hf', hc'⟩ := extend_walks hf hn (fun h => he.1 h.symm)
      rw [seek_extend hc.tail hf.head_eq hf.2.1]
      refine seek_none hf' hc' ?_ he.2 (by
        simp only [List.length_nil, List.length_cons] at *; omega)
      exact hn.sublist ((List.sublist_cons_self crt _).cons_cons head)
  | n + 1, nx, crt, [], [], hf, hc, _, _, _ => by rw [seek_full hc.tail hf]

end seek
end table

/-! ### The pool -/

/-- The free list and the chains of the live files are walks over pairwise different blocks of
    `ids`, and no two of them share a block. -/
structure Pool (ids : Set α) (head nil eof : α) (nx : α → α) (live : Set ι) (first : ι → α)
    (fl : List α) (ch : ι → List α) : Prop where
  free : Walk nx nil (nx head) fl
  free_nodup : fl.Nodup
  free_ids : ∀ x ∈ fl, x ∈ ids
  file : ∀ i ∈ live, Walk nx eof (first i) (ch i)
  file_nodup : ∀ i ∈ live, (ch i).Nodup
  file_ids : ∀ i ∈ live, ∀ x ∈ ch i, x ∈ ids
  file_free : ∀ i ∈ live, (ch i).Disjoint fl
  file_file : ∀ i ∈ live, ∀ j ∈ live, i ≠ j → (ch i).Disjoint (ch j)

namespace Pool
variable {ids : Set α} {head nil eof : α} {nx nx' : α → α} {live live' : Set ι}
  {first first' : ι → α} {fl fl' c c' : List α} {ch : ι → List α} {i j : ι}

theorem nodup_append (h : Pool ids head nil eof nx live first fl ch) (hi : i ∈ live) :
    (ch i ++ fl).Nodup :=
  List.nodup_append'.mpr ⟨h.file_nodup i hi, h.free_nodup, h.file_free i hi⟩

/-- The free list and the chains of different files, one after the other, repeat no block. -/
theorem nodup_flatMap (h : Pool ids head nil eof nx live first fl ch) {is : List ι}
    (his : is.Nodup) (hlive : ∀ i ∈ is, i ∈ live) : (fl ++ is.flatMap ch).Nodup := by
  refine List.nodup_append'.mpr ⟨h.free_nodup, List.nodup_flatMap.mpr ⟨fun i hi =>
    h.file_nodup i (hlive i hi), ?_⟩, fun x hx hmem => ?_⟩
  · exact his.imp_of_mem fun hi hj hne => h.file_file _ (hlive _ hi) _ (hlive _ hj) hne
  · obtain ⟨i, hi, hxi⟩ := List.mem_flatMap.mp hmem
    exact h.file_free i (hlive i hi) hxi hx

/-- The chain of a file that the change of another one keeps off is still there. -/
theorem keep (h : Pool ids head nil eof nx live first fl ch) (hhead : head ∉ ids) (hj : j ∈ live)
    (hc : (ch j).Disjoint c) (hframe : ∀ x, x ≠ head → x ∉ c → x ∉ fl → nx' x = nx x) :
    Walk nx' eof (first j) (ch j) :=
  (h.file j hj).congr (fun x hx => hframe x (fun he => hhead (he ▸ h.file_ids j hj x hx))
    (hc hx) (h.file_free j hj hx))

/-- Every change to one file: its blocks `c` and the free list turn into `c'` and `fl'`, made of
    the same blocks, while the table outside them and the other files stay as they are. -/
theorem replace [DecidableEq ι] (h : Pool ids head nil eof nx live first fl ch)
    (hhead : head ∉ ids) (hc : ∀ x ∈ c, x ∈ ids) (hdisj : ∀ j ∈ live, j ≠ i → (ch j).Disjoint c)
    (hframe : ∀ x, x ≠ head → x ∉ c → x ∉ fl → nx' x = nx x)
    (hlive : ∀ j ∈ live', j ≠ i → j ∈ live) (hfirst : ∀ j ∈ live', j ≠ i → first' j = first j)
    (hfree : Walk nx' nil (nx' head) fl') (hfile : Walk nx' eof (first' i) c')
    (hnodup : (c' ++ fl').Nodup) (hsub : ∀ x ∈ c' ++ fl', x ∈ c ∨ x ∈ fl) :
    Pool ids head nil eof nx' live' first' fl' (Function.update ch i c') := by
  obtain ⟨hn, hnf, hd⟩ := List.nodup_append'.mp hnodup
  have hids : ∀ x ∈ c' ++ fl', x ∈ ids := fun x hx => (hsub x hx).elim (hc x) (h.free_ids x)
  -- the blocks of another file are in neither part of the new one
  have hother : ∀ j ∈ live', j ≠ i → ∀ x ∈ ch j, x ∉ c' ++ fl' := by
    intro j hj hne x hx hmem
    have hj' := hlive j hj hne
    exact (hsub x hmem).elim (hdisj j hj' hne hx) (h.file_free j hj' hx)
  refine ⟨hfree, hnf, fun x hx => hids x (List.mem_append_right _ hx), ?_, ?_, ?_, ?_, ?_⟩
  · intro j hj
    rcases eq_or_ne j i with rfl | hne
    · rw [Function.update_self]; exact hfile
    · have hj' := hlive j hj hne
      rw [Function.update_of_ne hne, hfirst j hj hne]
      exact h.keep hhead hj' (hdisj j hj' hne) hframe
  · intro j hj
    rcases eq_or_ne j i with rfl | hne
    · rw [Function.update_self]; exact hn
    · rw [Function.update_of_ne hne]; exact h.file_nodup j (hlive j hj hne)
  · intro j hj x hx
    rcases eq_or_ne j i with rfl | hne
    · rw [Function.update_self] at hx; exact hids x (List.mem_append_left _ hx)
    · rw [Function.update_of_ne hne] at hx; exact h.file_ids j (hlive j hj hne) x hx
  · intro j hj
    rcases eq_or_ne j i with rfl | hne
    · rw [Function.update_self]; exact hd
    · rw [Function.update_of_ne hne]
      exact fun x hx hf => hother j hj hne x hx (List.mem_append_right _ hf)
  · intro j hj k hk hjk
    rcases eq_or_ne j i with rfl | hji
    · rw [Function.update_self, Function.update_of_ne hjk.symm]
      exact fun x hx hxk => hother k hk hjk.symm x hxk (List.mem_append_left _ hx)
    · rw [Function.update_of_ne hji]
      rcases eq_or_ne k i with rfl | hki
      · rw [Function.update_self]
        exact fun x hx hxk => hother j hj hji x hx (List.mem_append_left _ hxk)
      · rw [Function.update_of_ne hki]
        exact h.file_file j (hlive j hj hji) k (hlive k hk hki) hjk

end Pool

end Schemes
