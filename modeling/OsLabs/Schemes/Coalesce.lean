import Mathlib.Data.List.Nodup
import OsLabs.Schemes.Tiling

/-! scheme:coalesce | joining free neighbours, now or later

    A list of cells is settled when no two neighbours are both free. `merged` settles it: every
    maximal run of free cells becomes one cell, and the occupied cells stay as they are. It does not
    matter whether a part has been merged before (`merged_append_merged`, `merged_merged_append`),
    and an occupied cell keeps its two sides apart (`merged_occupied`). Hence cells may be released
    in any order, with or without merging in between (`merged_release_merged`).

        occ free free occ free   ──▶   occ free occ free
            └────┴── one ──┘                 -/

namespace Schemes

/-- Join all neighbours that are both free. -/
def merged : List Cell → List Cell
  | [] => []
  | c :: cs => coalesce c cs

/-- No two neighbours are both free. -/
def Settled (cs : List Cell) : Prop := cs.IsChain fun c d => ¬(c.free = true ∧ d.free = true)

/-- `e` is free and spans a maximal run of free cells of `cs`. -/
def IsRun (m : ℕ) (cs : List Cell) (e : Cell) : Prop :=
  ∃ l run r, cs = l ++ run ++ r ∧ run ≠ [] ∧ Tiles m e.lo e.hi run ∧ (∀ x ∈ run, x.free = true) ∧
    (∀ x ∈ l.getLast?, x.free = false) ∧ ∀ x ∈ r.head?, x.free = false

/-- Flag the cells that start at an address in `ps` free. -/
def release (ps : List ℕ) (cs : List Cell) : List Cell :=
  cs.map fun c => if c.lo ∈ ps then { c with free := true } else c

section step
variable {c d : Cell} {cs : List Cell}

theorem coalesce_join (h : (c.free && d.free) = true) :
    coalesce c (d :: cs) = coalesce { c with hi := d.hi } cs := by rw [coalesce, if_pos h]

theorem coalesce_keep (h : (c.free && d.free) = false) :
    coalesce c (d :: cs) = c :: coalesce d cs := by
  rw [coalesce, if_neg (by rw [h]; exact Bool.false_ne_true)]

/-- Merging keeps where the first cell starts and whether it is free. -/
theorem coalesce_head : ∀ (cs : List Cell) (c : Cell), ∃ e t, coalesce c cs = e :: t ∧
    e.lo = c.lo ∧ e.free = c.free
  | [], c => ⟨c, [], rfl, rfl, rfl⟩
  | d :: ds, c => by
      cases h : c.free && d.free with
      | true =>
        rw [coalesce_join h]
        exact coalesce_head ds { c with hi := d.hi }
      | false =>
        rw [coalesce_keep h]
        exact ⟨c, _, rfl, rfl, rfl⟩

/-- A cell stops before the next one if only one of the two is free. -/
theorem coalesce_append (l r : List Cell) : ∀ (c : Cell),
    merged (coalesce c l ++ r) = coalesce c (l ++ r) := by
  induction l with
  | nil => exact fun c => rfl
  | cons d ds ih =>
    intro c
    rw [List.cons_append]
    cases h : c.free && d.free with
    | true => rw [coalesce_join h, coalesce_join h, ih]
    | false =>
      obtain ⟨e, t, het, -, hfree⟩ := coalesce_head ds d
      have hce : (c.free && e.free) = false := by rw [hfree]; exact h
      rw [coalesce_keep h, coalesce_keep h, ← ih d, het, List.cons_append, List.cons_append,
        merged, coalesce_keep hce, merged]

end step

/-! ### What has been merged before -/

section again
variable {c : Cell} {cs : List Cell}

/-- Merging again after a part has been merged at the end. -/
theorem coalesce_coalesce (es : List Cell) : ∀ c d,
    coalesce c (coalesce d es) = coalesce c (d :: es) := by
  induction es with
  | nil => exact fun c d => rfl
  | cons e es ih =>
    intro c d
    cases hde : d.free && e.free with
    | true =>
      -- `d` absorbs `e` either way
      have hd : d.free = true := (Bool.and_eq_true_iff.mp hde).1
      have he : e.free = true := (Bool.and_eq_true_iff.mp hde).2
      rw [coalesce_join hde, ih]
      cases hc : c.free with
      | true =>
        rw [coalesce_join (by simp [hc, hd]), coalesce_join (by simp [hc, hd]),
          coalesce_join (by simp [hc, he])]
      | false =>
        rw [coalesce_keep (by simp [hc]), coalesce_keep (by simp [hc]), coalesce_join hde]
    | false =>
      rw [coalesce_keep hde]
      cases hcd : c.free && d.free with
      | true => rw [coalesce_join hcd, coalesce_join hcd, ih]
      | false => rw [coalesce_keep hcd, coalesce_keep hcd, ih]

theorem coalesce_merged (r : List Cell) (c : Cell) : coalesce c (merged r) = coalesce c r := by
  cases r with
  | nil => rfl
  | cons d ds => exact coalesce_coalesce ds c d

theorem merged_append_merged (l r : List Cell) : merged (l ++ merged r) = merged (l ++ r) := by
  have hco : ∀ (l : List Cell) (c : Cell), coalesce c (l ++ merged r) = coalesce c (l ++ r) := by
    intro l
    induction l with
    | nil => exact coalesce_merged r
    | cons d ds ih =>
      intro c
      rw [List.cons_append, List.cons_append]
      cases h : c.free && d.free with
      | true => rw [coalesce_join h, coalesce_join h, ih]
      | false => rw [coalesce_keep h, coalesce_keep h, ih]
  cases l with
  | cons d ds => exact hco ds d
  | nil =>
    cases r with
    | nil => rfl
    | cons d ds =>
      have hidem := coalesce_append ds [] d
      rw [List.append_nil, List.append_nil] at hidem
      exact hidem

theorem merged_merged_append (l r : List Cell) : merged (merged l ++ r) = merged (l ++ r) := by
  cases l with
  | nil => rfl
  | cons c cs => exact coalesce_append cs r c

/-- An occupied cell keeps its two sides apart. -/
theorem merged_occupied (l r : List Cell) (hc : c.free = false) :
    merged (l ++ c :: r) = merged l ++ c :: merged r := by
  have hright : coalesce c r = c :: merged r := by
    cases r with
    | nil => rfl
    | cons d ds => exact coalesce_keep (by simp [hc])
  have hleft : ∀ (l : List Cell) (x : Cell), coalesce x (l ++ c :: r) =
      coalesce x l ++ c :: merged r := by
    intro l
    induction l with
    | nil =>
      intro x
      rw [List.nil_append, coalesce_keep (by simp [hc]), hright]
      rfl
    | cons d ds ih =>
      intro x
      rw [List.cons_append]
      cases h : x.free && d.free with
      | true => rw [coalesce_join h, coalesce_join h, ih]
      | false => rw [coalesce_keep h, coalesce_keep h, ih, List.cons_append]
  cases l with
  | nil => exact hright
  | cons x xs => exact hleft xs x

end again

/-! ### What merging does -/

section result
variable {c e : Cell}

theorem settled_coalesce (cs : List Cell) : ∀ c, Settled (coalesce c cs) := by
  induction cs with
  | nil => exact fun c => .singleton c
  | cons d ds ih =>
    intro c
    cases h : c.free && d.free with
    | true => rw [coalesce_join h]; exact ih _
    | false =>
      obtain ⟨e, t, het, -, hfree⟩ := coalesce_head ds d
      have hrest := ih d
      rw [coalesce_keep h, het] at *
      refine List.isChain_cons_cons.mpr ⟨?_, hrest⟩
      rintro ⟨hc, he⟩
      rw [hc, ← hfree, he] at h
      cases h

/-- The occupied cells stay as they are. -/
theorem filter_coalesce (cs : List Cell) : ∀ c, (coalesce c cs).filter (fun x => !x.free) =
    (c :: cs).filter fun x => !x.free := by
  induction cs with
  | nil => exact fun c => rfl
  | cons d ds ih =>
    intro c
    cases h : c.free && d.free with
    | true =>
      obtain ⟨hc, hd⟩ := Bool.and_eq_true_iff.mp h
      rw [coalesce_join h, ih]
      simp [hc, hd]
    | false =>
      rw [coalesce_keep h]
      cases hc : c.free with
      | true =>
        rw [List.filter_cons_of_neg (by simp [hc]), List.filter_cons_of_neg (by simp [hc]), ih]
      | false =>
        rw [List.filter_cons_of_pos (by simp [hc]), List.filter_cons_of_pos (by simp [hc]), ih]

/-- Merging drops the starts of some cells. -/
theorem coalesce_lo_sublist (cs : List Cell) : ∀ c,
    ((coalesce c cs).map Cell.lo).Sublist ((c :: cs).map Cell.lo) := by
  induction cs with
  | nil => exact fun c => .refl _
  | cons d ds ih =>
    intro c
    cases h : c.free && d.free with
    | true =>
      rw [coalesce_join h]
      exact (ih _).trans ((List.sublist_cons_self d.lo _).cons_cons c.lo)
    | false =>
      rw [coalesce_keep h]
      exact (ih d).cons_cons c.lo

theorem merged_lo_sublist (cs : List Cell) :
    ((merged cs).map Cell.lo).Sublist (cs.map Cell.lo) := by
  cases cs with
  | nil => exact .refl _
  | cons d ds => exact coalesce_lo_sublist ds d

theorem length_merged_le (cs : List Cell) : (merged cs).length ≤ cs.length := by
  simpa using (merged_lo_sublist cs).length_le

theorem mem_merged {cs : List Cell} (hc : c ∈ cs) (hocc : c.free = false) : c ∈ merged cs := by
  obtain ⟨l, r, rfl⟩ := List.append_of_mem hc
  rw [merged_occupied l r hocc]
  simp

/-- The run of a joined cell contains both its parts. -/
theorem IsRun.unjoin {m : ℕ} {c d e : Cell} {ds : List Cell} (hc : c.free = true)
    (hd : d.free = true) (hm : c.lo + m ≤ c.hi) (hdc : d.lo = c.hi) (hmd : d.lo + m ≤ d.hi)
    (h : IsRun m ({ c with hi := d.hi } :: ds) e) : IsRun m (c :: d :: ds) e := by
  obtain ⟨l, run, r, hcs, hne, hrun, hall, hl, hr⟩ := h
  cases l with
  | nil =>
    -- the joined cell is the first of the run
    obtain ⟨x, run, rfl⟩ := List.exists_cons_of_ne_nil hne
    obtain ⟨rfl, rfl⟩ := List.cons.inj hcs
    obtain ⟨hlo, -, hrest⟩ := hrun
    refine ⟨[], c :: d :: run, r, rfl, by simp, ⟨hlo, hm, hdc, hmd, hrest⟩, ?_, by simp, hr⟩
    intro x hx
    rcases List.mem_cons.mp hx with rfl | hx
    · exact hc
    · rcases List.mem_cons.mp hx with rfl | hx
      · exact hd
      · exact hall x (List.mem_cons_of_mem _ hx)
  | cons x l =>
    -- it lies before the run
    obtain ⟨rfl, rfl⟩ := List.cons.inj hcs
    refine ⟨c :: d :: l, run, r, rfl, hne, hrun, hall, ?_, hr⟩
    cases l with
    | nil =>
      have hx := hl { c with hi := d.hi } rfl
      rw [hc] at hx
      cases hx
    | cons y l => simpa [List.getLast?_cons_cons] using hl

/-- A run stays maximal behind a cell that is not joined to it. -/
theorem IsRun.behind {m : ℕ} {c d e : Cell} {ds : List Cell} (hcd : (c.free && d.free) = false)
    (h : IsRun m (d :: ds) e) : IsRun m (c :: d :: ds) e := by
  obtain ⟨l, run, r, hcs, hne, hrun, hall, hl, hr⟩ := h
  refine ⟨c :: l, run, r, by rw [hcs]; rfl, hne, hrun, hall, ?_, hr⟩
  cases l with
  | nil =>
    obtain ⟨x, run, rfl⟩ := List.exists_cons_of_ne_nil hne
    obtain ⟨rfl, -⟩ := List.cons.inj hcs
    rw [hall d (List.mem_cons_self ..), Bool.and_true] at hcd
    simpa using hcd
  | cons y l => simpa [List.getLast?_cons_cons] using hl

/-- A free cell of the result spans a maximal run of free cells. -/
theorem coalesce_run {m : ℕ} (cs : List Cell) : ∀ {a b : ℕ} {c : Cell}, Tiles m a b (c :: cs) →
    ∀ e ∈ coalesce c cs, e.free = true → IsRun m (c :: cs) e := by
  induction cs with
  | nil =>
    intro a b c ht e he hfree
    obtain rfl := List.mem_singleton.mp he
    exact ⟨[], [e], [], rfl, by simp, ⟨rfl, ht.2.1, rfl⟩, by simpa using hfree, by simp, by simp⟩
  | cons d ds ih =>
    rintro a b c ⟨rfl, hm, hdc, hmd, ht⟩ e he hfree
    cases h : c.free && d.free with
    | true =>
      obtain ⟨hc, hd⟩ := Bool.and_eq_true_iff.mp h
      have hjoin : c.lo + m ≤ d.hi := by omega
      have htile : Tiles m c.lo b ({ c with hi := d.hi } :: ds) := ⟨rfl, hjoin, ht⟩
      rw [coalesce_join h] at he
      exact (ih htile e he hfree).unjoin hc hd hm hdc hmd
    | false =>
      rw [coalesce_keep h] at he
      rcases List.mem_cons.mp he with rfl | he
      · -- the next cell is occupied
        rw [hfree, Bool.true_and] at h
        exact ⟨[], [e], d :: ds, rfl, by simp, ⟨rfl, hm, rfl⟩, by simpa using hfree, by simp,
          by simpa using h⟩
      · exact (ih ⟨hdc, hmd, ht⟩ e he hfree).behind h

end result

/-! ### Releasing cells -/

section release
variable {c : Cell} {p : ℕ} {ps qs : List ℕ} {cs l r : List Cell}

theorem release_map_lo : (release ps cs).map Cell.lo = cs.map Cell.lo := by
  rw [release, List.map_map]
  refine List.map_congr_left fun c _ => ?_
  rw [Function.comp_apply]
  split <;> rfl

theorem release_append : release ps (l ++ r) = release ps l ++ release ps r := List.map_append ..

/-- Cells that start elsewhere stay as they are. -/
theorem release_out (h : ∀ x ∈ cs.map Cell.lo, x ∉ ps) : release ps cs = cs := by
  have hid : ∀ c ∈ cs, (if c.lo ∈ ps then { c with free := true } else c) = id c :=
    fun c hc => if_neg (h c.lo (List.mem_map_of_mem hc))
  rw [release, List.map_congr_left hid, List.map_id]

theorem release_nil (cs : List Cell) : release [] cs = cs := release_out fun _ _ => List.not_mem_nil

/-- A cell that starts elsewhere is still there. -/
theorem mem_release (hc : c ∈ cs) (h : c.lo ∉ ps) : c ∈ release ps cs :=
  List.mem_map.mpr ⟨c, hc, if_neg h⟩

/-- Releasing one cell of a list without repetitions. -/
theorem release_split (hn : ((l ++ c :: r).map Cell.lo).Nodup) :
    release [c.lo] (l ++ c :: r) = l ++ { c with free := true } :: r := by
  rw [List.map_append, List.map_cons, List.nodup_append', List.nodup_cons] at hn
  obtain ⟨-, ⟨hr, -⟩, hdisj⟩ := hn
  have hl' : release [c.lo] l = l := release_out fun x hx hxc =>
    hdisj hx (List.mem_cons.mpr (Or.inl (List.mem_singleton.mp hxc)))
  have hr' : release [c.lo] r = r := release_out fun x hx hxc =>
    hr (List.mem_singleton.mp hxc ▸ hx)
  have hcons : release [c.lo] (c :: r) = { c with free := true } :: release [c.lo] r := by
    rw [release, List.map_cons, if_pos (List.mem_singleton_self _)]
    rfl
  rw [release_append, hl', hcons, hr']

theorem release_release : release qs (release ps cs) = release (ps ++ qs) cs := by
  rw [release, release, release, List.map_map]
  refine List.map_congr_left fun c _ => ?_
  rw [Function.comp_apply]
  by_cases hp : c.lo ∈ ps
  · rw [if_pos hp, if_pos (List.mem_append_left _ hp)]
    exact ite_self _
  · rw [if_neg hp]
    exact if_congr (by rw [List.mem_append, or_iff_right hp]) rfl rfl

/-- The order of the addresses does not matter. -/
theorem release_perm (h : ps.Perm qs) : release ps cs = release qs cs := by
  rw [release, release]
  exact List.map_congr_left fun c _ => if_congr h.mem_iff rfl rfl

/-- An occupied cell may be released before or after merging. -/
theorem merged_release_merged (hn : (cs.map Cell.lo).Nodup) (hc : c ∈ cs)
    (hocc : c.free = false) :
    merged (release [c.lo] (merged cs)) = merged (release [c.lo] cs) := by
  obtain ⟨l, r, rfl⟩ := List.append_of_mem hc
  have hn' : ((merged l ++ c :: merged r).map Cell.lo).Nodup := by
    rw [List.map_append, List.map_cons] at hn ⊢
    exact hn.sublist ((merged_lo_sublist l).append ((merged_lo_sublist r).cons_cons c.lo))
  rw [merged_occupied l r hocc, release_split hn', release_split hn, merged_merged_append]
  have hsplit := merged_append_merged (l ++ [{ c with free := true }]) r
  rw [List.append_assoc, List.append_assoc] at hsplit
  exact hsplit

end release

end Schemes
