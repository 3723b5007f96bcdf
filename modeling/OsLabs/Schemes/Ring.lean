import Mathlib.Tactic.Common
import Mathlib.Data.List.Chain
import Mathlib.Data.List.Nodup
import Mathlib.Logic.Function.Basic

/-! scheme:ring | circular doubly linked lists

    A ring is a list of distinct nodes, each linked with the next one and the last with the first.
    Linking two nodes means both directions, so on a ring the two maps are inverse to each other
    (`prev_next`, `next_prev`). A ring may be read from any of its nodes (`rotate`), is determined
    by the first (`unique`), and is closed under the two pointer surgeries: joining two rings with
    four writes (`splice`), and taking a node out with two (`unlink`).

        a ⇄ … ⇄ pv a ⇄ (a)          b ⇄ … ⇄ pv b ⇄ (b)
                 ╰──────── splice ────╯        ╰──▶ a           -/

namespace Schemes
variable {α : Type*}

/-- `x` and `y` are linked in both directions. -/
def Link (nx pv : α → α) (x y : α) : Prop := nx x = y ∧ pv y = x

/-- The nodes of `l` form a ring. -/
structure Ring (nx pv : α → α) (l : List α) : Prop where
  nodup : l.Nodup
  links : l.IsChain (Link nx pv)
  closed : ∀ z ∈ l.getLast?, ∀ a ∈ l.head?, Link nx pv z a

/-- Links between neighbours do not depend on the successor of the last node or the predecessor of
    the first. -/
theorem links_congr {nx pv nx' pv' : α → α} {l : List α} (h : l.IsChain (Link nx pv))
    (hnx : ∀ x ∈ l.dropLast, nx' x = nx x) (hpv : ∀ y ∈ l.tail, pv' y = pv y) :
    l.IsChain (Link nx' pv') := by
  induction h with
  | nil => exact .nil
  | singleton a => exact .singleton a
  | @cons_cons a b l hab _ ih =>
    refine .cons_cons ⟨?_, ?_⟩ (ih (fun x hx => ?_) fun y hy => ?_)
    · rw [hnx a (List.mem_cons_self ..), hab.1]
    · rw [hpv b (List.mem_cons_self ..), hab.2]
    · exact hnx x (List.mem_cons_of_mem _ hx)
    · exact hpv y (List.mem_cons_of_mem _ hy)

/-- Two walks from one node that come back to `a` at their ends only are the same. -/
theorem links_unique {nx pv : α → α} {a : α} : ∀ {l m : List α} {b : α},
    (b :: l).IsChain (Link nx pv) → (b :: m).IsChain (Link nx pv) →
    (∀ z ∈ (b :: l).getLast?, nx z = a) → (∀ z ∈ (b :: m).getLast?, nx z = a) →
    a ∉ l → a ∉ m → l = m
  | [], [], _, _, _, _, _, _, _ => rfl
  | [], _ :: _, b, _, hm, hl, _, _, ham => by
      rw [← (List.rel_of_isChain_cons_cons hm).1, hl b rfl] at ham
      exact absurd (List.mem_cons_self ..) ham
  | _ :: _, [], b, hl, _, _, hm, hal, _ => by
      rw [← (List.rel_of_isChain_cons_cons hl).1, hm b rfl] at hal
      exact absurd (List.mem_cons_self ..) hal
  | d :: l, e :: m, b, hl, hm, hzl, hzm, hal, ham => by
      obtain rfl : d = e :=
        (List.rel_of_isChain_cons_cons hl).1.symm.trans (List.rel_of_isChain_cons_cons hm).1
      rw [List.getLast?_cons_cons] at hzl hzm
      rw [links_unique hl.tail hm.tail hzl hzm (fun h => hal (List.mem_cons_of_mem _ h))
        fun h => ham (List.mem_cons_of_mem _ h)]

/-- The last of distinct nodes is not among the others. -/
theorem ne_of_mem_dropLast {l : List α} {x z : α} (hl : l.Nodup) (hz : l.getLast? = some z)
    (hx : x ∈ l.dropLast) : x ≠ z := by
  obtain ⟨ys, rfl⟩ := List.getLast?_eq_some_iff.mp hz
  rw [List.dropLast_concat] at hx
  exact fun h => (List.nodup_append.mp hl).2.2 x hx z (List.mem_singleton_self z) h

namespace Ring
variable {nx pv nx' pv' : α → α} {a b x : α} {l m : List α}

theorem nil : Ring nx pv [] := ⟨.nil, .nil, fun _ hz => by cases hz⟩

/-- A node linked with itself. -/
theorem single (hnx : nx a = a) (hpv : pv a = a) : Ring nx pv [a] := by
  refine ⟨List.nodup_singleton a, .singleton a, fun z hz b hb => ?_⟩
  obtain rfl := Option.some.inj hz
  obtain rfl := Option.some.inj hb
  exact ⟨hnx, hpv⟩

theorem congr (h : Ring nx pv l) (hnx : ∀ x ∈ l, nx' x = nx x) (hpv : ∀ x ∈ l, pv' x = pv x) :
    Ring nx' pv' l := by
  refine ⟨h.nodup, ?_, fun z hz a ha => ?_⟩
  · exact links_congr h.links (fun x hx => hnx x (List.dropLast_subset l hx))
      fun y hy => hpv y (List.mem_of_mem_tail hy)
  · obtain ⟨hn, hp⟩ := h.closed z hz a ha
    refine ⟨?_, ?_⟩
    · rw [hnx z (List.mem_of_mem_getLast? hz), hn]
    · rw [hpv a (List.mem_of_mem_head? ha), hp]

/-- The predecessor of the first node is the last. -/
theorem last (h : Ring nx pv (a :: l)) : (a :: l).getLast? = some (pv a) := by
  have hz := List.getLast?_eq_some_getLast (List.cons_ne_nil a l)
  rw [hz, (h.closed _ hz a rfl).2]

theorem pv_mem (h : Ring nx pv (a :: l)) : pv a ∈ a :: l := List.mem_of_mem_getLast? h.last

theorem nx_pv_head (h : Ring nx pv (a :: l)) : nx (pv a) = a := (h.closed _ h.last a rfl).1

/-- A ring may be read from any of its nodes. -/
theorem rotate (h : Ring nx pv (l ++ m)) : Ring nx pv (m ++ l) := by
  cases l with
  | nil => rwa [List.append_nil]
  | cons a l =>
    cases m with
    | nil => rwa [List.append_nil] at h
    | cons b m =>
      obtain ⟨hl, hm, hseam⟩ := List.isChain_append.mp h.links
      have hlast : (a :: l ++ b :: m).getLast? = (b :: m).getLast? :=
        List.getLast?_append_cons ..
      refine ⟨List.nodup_append_comm.mp h.nodup, List.isChain_append.mpr ⟨hm, hl, ?_⟩, ?_⟩
      · intro z hz y hy
        exact h.closed z (by rwa [hlast]) y hy
      · intro z hz y hy
        rw [List.getLast?_append_cons] at hz
        exact hseam z hz y hy

theorem pv_nx_head (h : Ring nx pv (a :: l)) : pv (nx a) = a := by
  cases l with
  | nil =>
    obtain ⟨hn, hp⟩ := h.closed a rfl a rfl
    rw [hn, hp]
  | cons b l =>
    obtain ⟨hn, hp⟩ := List.rel_of_isChain_cons_cons h.links
    rw [hn, hp]

/-- The successor of the first node is the second, or itself. -/
theorem nx_head (h : Ring nx pv (a :: l)) : l.headD a = nx a := by
  cases l with
  | nil => exact (h.closed a rfl a rfl).1.symm
  | cons b l => exact (List.rel_of_isChain_cons_cons h.links).1.symm

theorem nx_mem (h : Ring nx pv (a :: l)) : nx a ∈ a :: l := by
  rw [← h.nx_head]
  cases l with
  | nil => exact List.mem_singleton_self a
  | cons b l => exact List.mem_cons_of_mem _ (List.mem_cons_self ..)

theorem prev_next (h : Ring nx pv l) (hx : x ∈ l) : pv (nx x) = x := by
  obtain ⟨p, r, rfl⟩ := List.append_of_mem hx
  exact h.rotate.pv_nx_head

theorem next_prev (h : Ring nx pv l) (hx : x ∈ l) : nx (pv x) = x := by
  obtain ⟨p, r, rfl⟩ := List.append_of_mem hx
  exact h.rotate.nx_pv_head

/-- A ring is determined by its first node. -/
theorem unique (h : Ring nx pv (a :: l)) (h' : Ring nx pv (a :: m)) : l = m :=
  links_unique h.links h'.links (fun z hz => (h.closed z hz a rfl).1)
    (fun z hz => (h'.closed z hz a rfl).1) (List.nodup_cons.mp h.nodup).1
    (List.nodup_cons.mp h'.nodup).1

section surgery
variable [DecidableEq α]
open Function (update)

/-- Joining two rings: the last node of each is linked with the first of the other. -/
theorem splice (hl : Ring nx pv (a :: l)) (hm : Ring nx pv (b :: m))
    (hd : ∀ x ∈ a :: l, ∀ y ∈ b :: m, x ≠ y) :
    Ring (update (update nx (pv a) b) (pv b) a) (update (update pv a (pv b)) b (pv a))
      (a :: l ++ b :: m) := by
  have hab : a ≠ b := hd a (List.mem_cons_self ..) b (List.mem_cons_self ..)
  have hzz : pv a ≠ pv b := hd _ hl.pv_mem _ hm.pv_mem
  have hseam : Link (update (update nx (pv a) b) (pv b) a)
      (update (update pv a (pv b)) b (pv a)) (pv a) b := by
    refine ⟨?_, Function.update_self ..⟩
    rw [Function.update_of_ne hzz, Function.update_self]
  have hclose : Link (update (update nx (pv a) b) (pv b) a)
      (update (update pv a (pv b)) b (pv a)) (pv b) a := by
    refine ⟨Function.update_self .., ?_⟩
    rw [Function.update_of_ne hab, Function.update_self]
  refine ⟨List.nodup_append.mpr ⟨hl.nodup, hm.nodup, hd⟩, List.isChain_append.mpr ⟨?_, ?_, ?_⟩, ?_⟩
  · refine links_congr hl.links (fun x hx => ?_) fun y hy => ?_
    · rw [Function.update_of_ne (hd x (List.dropLast_subset _ hx) _ hm.pv_mem),
        Function.update_of_ne (ne_of_mem_dropLast hl.nodup hl.last hx)]
    · have hya : y ≠ a := fun h => (List.nodup_cons.mp hl.nodup).1 (h ▸ hy)
      rw [Function.update_of_ne (hd y (List.mem_cons_of_mem _ hy) b (List.mem_cons_self ..)),
        Function.update_of_ne hya]
  · refine links_congr hm.links (fun x hx => ?_) fun y hy => ?_
    · rw [Function.update_of_ne (ne_of_mem_dropLast hm.nodup hm.last hx),
        Function.update_of_ne (hd _ hl.pv_mem x (List.dropLast_subset _ hx)).symm]
    · have hyb : y ≠ b := fun h => (List.nodup_cons.mp hm.nodup).1 (h ▸ hy)
      rw [Function.update_of_ne hyb, Function.update_of_ne
        (hd a (List.mem_cons_self ..) y (List.mem_cons_of_mem _ hy)).symm]
  · intro z hz y hy
    obtain rfl := Option.some.inj (hl.last.symm.trans hz)
    obtain rfl := Option.some.inj hy
    exact hseam
  · intro z hz y hy
    rw [List.getLast?_append_cons] at hz
    obtain rfl := Option.some.inj (hm.last.symm.trans hz)
    obtain rfl := Option.some.inj hy
    exact hclose

/-- Taking the first node out of a ring: its neighbours are linked with each other. -/
theorem unlink (h : Ring nx pv (a :: b :: l)) :
    Ring (update nx (pv a) (nx a)) (update pv (nx a) (pv a)) (b :: l) := by
  have hb : nx a = b := (List.rel_of_isChain_cons_cons h.links).1
  have hnd := (List.nodup_cons.mp h.nodup).2
  have hlast : (b :: l).getLast? = some (pv a) := by
    rw [← h.last, List.getLast?_cons_cons]
  rw [hb]
  refine ⟨hnd, links_congr h.links.tail (fun x hx => ?_) (fun y hy => ?_), ?_⟩
  · exact Function.update_of_ne (ne_of_mem_dropLast hnd hlast hx) ..
  · have hyb : y ≠ b := fun hy' => (List.nodup_cons.mp hnd).1 (hy' ▸ hy)
    exact Function.update_of_ne hyb ..
  · intro z hz y hy
    obtain rfl := Option.some.inj (hlast.symm.trans hz)
    obtain rfl := Option.some.inj hy
    exact ⟨Function.update_self .., Function.update_self ..⟩

end surgery

end Ring

end Schemes
