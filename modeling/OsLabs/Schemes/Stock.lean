import Mathlib.Data.Set.Insert
import OsLabs.Schemes.Pool

/-! scheme:stock | a free list and what has been taken from it

    The blocks of `ids` are either held by someone or on the free list, and never both. A held block
    points to `eof`. Taking the first free block (`pop`) and giving a held one back (`push`) keep it
    that way, and giving back the block just taken undoes the taking. -/

namespace Schemes
variable {α : Type*}

section push
variable [DecidableEq α] {head nil eof b : α} {nx : α → α} {fl : List α}

/-- The table after block `b` has been put at the head of the free list. -/
def push (head : α) (nx : α → α) (b : α) : α → α :=
  Function.update (Function.update nx b (nx head)) head b

theorem push_head : push head nx b head = b := Function.update_self ..

theorem push_block (h : b ≠ head) : push head nx b b = nx head := by
  rw [push, Function.update_of_ne h, Function.update_self]

theorem push_out {x : α} (hx : x ≠ head) (hb : x ≠ b) : push head nx b x = nx x := by
  rw [push, Function.update_of_ne hx, Function.update_of_ne hb]

/-- Pushing a block puts it in front of the free list. -/
theorem push_free (h : Walk nx nil (nx head) fl) (hhead : head ∉ fl) (hb : b ∉ head :: fl)
    (hnil : b ≠ nil) : Walk (push head nx b) nil (push head nx b head) (b :: fl) := by
  rw [List.mem_cons, not_or] at hb
  refine ⟨push_head, hnil, ?_⟩
  rw [push_block hb.1]
  refine h.congr fun x hx => push_out ?_ ?_
  · rintro rfl
    exact hhead hx
  · rintro rfl
    exact hb.2 hx

/-- Pushing the first block of a chain leaves the rest of the chain. -/
theorem push_rest {bs : List α} (h : Walk nx eof b (b :: bs)) (hhead : head ∉ bs) (hb : b ∉ bs) :
    Walk (push head nx b) eof (nx b) bs := by
  refine h.tail.congr fun x hx => push_out ?_ ?_
  · rintro rfl
    exact hhead hx
  · rintro rfl
    exact hb hx

/-- Giving back the block just taken restores the table. -/
theorem push_pop (h : nx head = b) (hb : b ≠ head) : push head (pop head eof nx) b = nx := by
  funext x
  rcases eq_or_ne x head with rfl | hx
  · rw [push_head, h]
  · rcases eq_or_ne x b with rfl | hxb
    · rw [push_block hb, pop_head h hb.symm]
    · rw [push_out hx hxb, pop_out h hx hxb]

end push

/-- The free list is made of just those blocks of `ids` that are not held, and the held ones are
    closed. -/
structure Stock (ids : Set α) (head nil eof : α) (nx : α → α) (held : Set α) (fl : List α) :
    Prop where
  free : Walk nx nil (nx head) fl
  nodup : fl.Nodup
  cover : ∀ x, x ∈ fl ↔ x ∈ ids ∧ x ∉ held
  sub : held ⊆ ids
  closed : ∀ x ∈ held, nx x = eof

namespace Stock
variable {ids held : Set α} {head nil eof b : α} {nx : α → α} {fl : List α}

/-- Nothing is free exactly when everything is held. -/
theorem nil_iff (h : Stock ids head nil eof nx held fl) : fl = [] ↔ held = ids := by
  constructor
  · rintro rfl
    refine h.sub.antisymm fun x hx => ?_
    by_contra hout
    exact absurd ((h.cover x).mpr ⟨hx, hout⟩) List.not_mem_nil
  · rintro rfl
    refine List.eq_nil_iff_forall_not_mem.mpr fun x hx => ?_
    obtain ⟨hin, hout⟩ := (h.cover x).mp hx
    exact hout hin

variable [DecidableEq α]

theorem pop (h : Stock ids head nil eof nx held (b :: fl)) (hhead : head ∉ ids) :
    Stock ids head nil eof (Schemes.pop head eof nx) (insert b held) fl := by
  obtain ⟨hb, hbheld⟩ := (h.cover b).mp (List.mem_cons_self ..)
  obtain ⟨hbfl, hfl⟩ := List.nodup_cons.mp h.nodup
  have hne : ∀ x ∈ ids, x ≠ head := by
    rintro x hx rfl
    exact hhead hx
  refine ⟨pop_free eof h.free ?_, hfl, fun x => ?_, Set.insert_subset hb h.sub, ?_⟩
  · exact List.nodup_cons.mpr ⟨fun hmem => hhead ((h.cover head).mp hmem).1, h.nodup⟩
  · have hcover := h.cover x
    rw [List.mem_cons] at hcover
    rw [Set.mem_insert_iff, not_or]
    constructor
    · intro hx
      obtain ⟨hin, hout⟩ := hcover.mp (Or.inr hx)
      refine ⟨hin, ?_, hout⟩
      rintro rfl
      exact hbfl hx
    · rintro ⟨hin, hxb, hout⟩
      exact (hcover.mpr ⟨hin, hout⟩).resolve_left hxb
  · rintro x (rfl | hx)
    · exact pop_block h.free.head_eq
    · have hxb : x ≠ b := by
        rintro rfl
        exact hbheld hx
      rw [pop_out h.free.head_eq (hne x (h.sub hx)) hxb]
      exact h.closed x hx

theorem push (h : Stock ids head nil eof nx held fl) (hhead : head ∉ ids) (hnil : nil ∉ ids)
    (hb : b ∈ held) : Stock ids head nil eof (Schemes.push head nx b) (held \ {b}) (b :: fl) := by
  have hbids := h.sub hb
  have hbfl : b ∉ fl := fun hmem => ((h.cover b).mp hmem).2 hb
  have hne : ∀ x ∈ ids, x ≠ head := by
    rintro x hx rfl
    exact hhead hx
  refine ⟨push_free h.free ?_ ?_ ?_, List.nodup_cons.mpr ⟨hbfl, h.nodup⟩, fun x => ?_,
    fun x hx => h.sub hx.1, ?_⟩
  · exact fun hmem => hhead ((h.cover head).mp hmem).1
  · rw [List.mem_cons, not_or]
    exact ⟨hne b hbids, hbfl⟩
  · rintro rfl
    exact hnil hbids
  · rw [List.mem_cons, h.cover x, Set.mem_sdiff, Set.mem_singleton_iff, not_and, not_not]
    constructor
    · rintro (rfl | ⟨hin, hout⟩)
      · exact ⟨hbids, fun _ => rfl⟩
      · exact ⟨hin, fun hx => absurd hx hout⟩
    · rintro ⟨hin, himp⟩
      by_cases hx : x ∈ held
      · exact Or.inl (himp hx)
      · exact Or.inr ⟨hin, hx⟩
  · rintro x ⟨hx, hxb⟩
    rw [push_out (hne x (h.sub hx)) hxb]
    exact h.closed x hx

end Stock

end Schemes
