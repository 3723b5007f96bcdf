import OsLabs.Sh.Lists

/-! @src lab1_shell/list.c | name:free list | scheme:ring

    `free_list` gives the node behind the head to `delete_list` until the head is its own successor,
    and the head last. A freed node is not allocated any more, and reading, writing or freeing it
    again has no meaning (`none`).

        a ⇄ b ⇄ c ⇄ a        a ⇄ c ⇄ a        a ⇄ a        NULL
                  free(b)            free(c)       free(a)               -/

namespace OsLabs.Sh
open Schemes

/-- One trip of `while (*list != (*list)->succ)`, with the nodes unlinked so far. -/
def freeTrip (list : ℕ) (st : Heap × List ℕ) : (Heap × List ℕ) ⊕ Option (Heap × List ℕ) :=
  match st.1.getSucc list with
  | none => .inr none
  | some next =>
    if list ≠ next then
      match deleteList next st.1 with
      | none => .inr none
      | some h => .inl (h, st.2 ++ [next])
    else .inr (some st)

/-- The heap, `*list`, and the nodes that went to `delete_list` in order. -/
def freeList (fuel list : ℕ) (h : Heap) : Option (Heap × ℕ × List ℕ) := do
  if list = null then
    return (h, null, [])
  else
    let (h, freed) ← (iter (freeTrip list) fuel (h, [])).join
    let h ← deleteList list h
    return (h, null, freed ++ [list])

section free
variable {h h' : Heap} {a b : ℕ} {l freed : List ℕ}

theorem setSucc_live {p v : ℕ} (hs : h.setSucc p v = some h') : h'.live = h.live := by
  rw [Heap.setSucc] at hs
  split_ifs at hs
  rw [← Option.some.inj hs]

theorem setPred_live {p v : ℕ} (hs : h.setPred p v = some h') : h'.live = h.live := by
  rw [Heap.setPred] at hs
  split_ifs at hs
  rw [← Option.some.inj hs]

/-- `delete_list` frees its node and no other. -/
theorem deleteList_live (hd : deleteList a h = some h') :
    h'.live = Function.update h.live a false := by
  simp only [deleteList, Option.bind_eq_bind, Option.bind_eq_some_iff] at hd
  obtain ⟨_, -, _, -, h₁, hsucc, _, -, _, -, h₂, hpred, hfree⟩ := hd
  rw [Heap.free] at hfree
  split_ifs at hfree
  rw [← Option.some.inj hfree, setPred_live hpred, setSucc_live hsucc]

/-- One trip unlinks the node behind the head. -/
theorem freeTrip_cons (hl : h.Holds (a :: b :: l)) (freed : List ℕ) : ∃ h',
    freeTrip a (h, freed) = .inl (h', freed ++ [b]) ∧ h'.Holds (a :: l) ∧ h'.live b = false ∧
      ∀ n, n ∉ a :: b :: l → h.Same h' n := by
  have ha : h.getSucc a = some b := by
    have hnx : b = h.succ a := hl.ring.nx_head
    rw [Heap.getSucc, if_pos (hl.live a (List.mem_cons_self ..)), ← hnx]
  have hne : a ≠ b := fun he => (List.nodup_cons.mp hl.ring.nodup).1 (he ▸ List.mem_cons_self ..)
  have hb : h.Holds (b :: (l ++ [a])) := Heap.Holds.rotate (l := [a]) (m := b :: l) hl
  obtain ⟨h', hdel, hholds, -, hsame⟩ := deleteList_spec hb
  refine ⟨h', ?_, hholds.rotate, ?_, fun n hn => hsame n fun hmem => hn ?_⟩
  · rw [freeTrip, ha]
    dsimp only
    rw [if_pos hne, hdel]
  · rw [deleteList_live hdel, Function.update_self]
  · exact (List.perm_append_singleton a (b :: l)).mem_iff.mp hmem

/-- The loop ends at a ring of one node. -/
theorem freeTrip_single (hl : h.Holds [a]) : freeTrip a (h, freed) = .inr (some (h, freed)) := by
  have ha : h.getSucc a = some a := by
    have hnx : a = h.succ a := hl.ring.nx_head
    rw [Heap.getSucc, if_pos (hl.live a (List.mem_cons_self ..)), ← hnx]
  rw [freeTrip, ha]
  exact if_neg (not_not.mpr rfl)

/-- The loop leaves the head, and has unlinked the other nodes in the order of the ring. -/
theorem freeTrip_iter (hl : h.Holds (a :: l)) (freed : List ℕ) : ∃ h',
    iter (freeTrip a) (l.length + 1) (h, freed) = some (some (h', freed ++ l)) ∧ h'.Holds [a] ∧
      (∀ n ∈ l, h'.live n = false) ∧ ∀ n, n ∉ a :: l → h.Same h' n := by
  induction l generalizing h freed with
  | nil =>
    refine ⟨h, ?_, hl, List.forall_mem_nil _, fun n _ => .refl h n⟩
    rw [List.append_nil]
    exact iter_inr (freeTrip_single hl)
  | cons b l ih =>
    obtain ⟨h₁, htrip, hl₁, hb, hsame₁⟩ := freeTrip_cons hl freed
    obtain ⟨h', hiter, ha', hdead, hsame⟩ := ih hl₁ (freed ++ [b])
    have hnodup := hl.ring.nodup
    have hb' : b ∉ a :: l := by
      rw [List.nodup_cons, List.nodup_cons, List.mem_cons, not_or] at hnodup
      rw [List.mem_cons, not_or]
      exact ⟨Ne.symm hnodup.1.1, hnodup.2.1⟩
    refine ⟨h', ?_, ha', ?_, fun n hn => ?_⟩
    · rw [List.length_cons, iter_inl htrip, hiter, List.append_assoc, List.singleton_append]
    · -- what was freed is not touched again
      exact List.forall_mem_cons.mpr ⟨(hsame b hb').live.trans hb, hdead⟩
    · rw [List.mem_cons, List.mem_cons, not_or, not_or] at hn
      refine (hsame₁ n ?_).trans (hsame n ?_)
      · simpa using hn
      · simpa using ⟨hn.1, hn.2.2⟩

/-- CORRECT (free list): `free_list` on a ring of any number of nodes, or NULL, ends; it unlinks
    each node once and uses no node that it has freed; the pointer is NULL then, and no other node
    has changed. -/
theorem freeList_frees (hl : h.Holds l) : ∃ h' freed,
    (∀ fuel, l.length ≤ fuel → freeList fuel (l.headD null) h = some (h', null, freed)) ∧
      freed.Perm l ∧ freed.Nodup ∧ (∀ n ∈ l, h'.live n = false) ∧ ∀ n, n ∉ l → h.Same h' n := by
  cases l with
  | nil =>
    exact ⟨h, [], fun _ _ => rfl, .nil, .nil, List.forall_mem_nil _, fun n _ => .refl h n⟩
  | cons a l =>
    obtain ⟨h₁, hiter, ha, hdead, hsame₁⟩ := freeTrip_iter hl []
    obtain ⟨h', hdel, -, -, hsame⟩ := deleteList_spec ha
    have hperm : (l ++ [a]).Perm (a :: l) := List.perm_append_singleton a l
    have hlive := deleteList_live hdel
    refine ⟨h', l ++ [a], fun fuel hfuel => ?_, hperm, hperm.nodup_iff.mpr hl.ring.nodup, ?_,
      fun n hn => (hsame₁ n hn).trans (hsame n fun hmem => hn ?_)⟩
    · have hne : ¬a = null := hl.ne_null a (List.mem_cons_self ..)
      rw [List.headD_cons, freeList, if_neg hne, iter_mono hfuel hiter]
      simp only [Option.join_some, Option.bind_eq_bind, Option.bind_some, hdel]
      rfl
    · refine List.forall_mem_cons.mpr ⟨by rw [hlive, Function.update_self], fun n hn => ?_⟩
      have hna : n ≠ a := fun he => (List.nodup_cons.mp hl.ring.nodup).1 (he ▸ hn)
      rw [hlive, Function.update_of_ne hna]
      exact hdead n hn
    · rw [List.mem_singleton.mp hmem]
      exact List.mem_cons_self ..

/-- The ring of the nodes 1 and 2. -/
theorem freeList_frees_two : ∃ h' freed, freeList 2 1 ⟨fun n => n == 1 || n == 2,
    fun n => 3 - n, fun n => 3 - n, fun _ => 0⟩ = some (h', null, freed) ∧ freed.Perm [1, 2] := by
  have hring : Ring (fun n => 3 - n) (fun n => 3 - n) [1, 2] := by
    refine ⟨by decide, .cons_cons ⟨rfl, rfl⟩ (.singleton 2), fun z hz a ha => ?_⟩
    cases hz
    cases ha
    exact ⟨rfl, rfl⟩
  obtain ⟨h', freed, hrun, hperm, -⟩ := freeList_frees (h := ⟨fun n => n == 1 || n == 2,
    fun n => 3 - n, fun n => 3 - n, fun _ => 0⟩) ⟨hring, by decide, by decide⟩
  exact ⟨h', freed, hrun 2 (Nat.le_refl 2), hperm⟩

end free

end OsLabs.Sh
