import OsLabs.Schemes.Text
import OsLabs.Sh.Lists

/-! @src lab1_shell/sh.c, lab1_shell/list.c | name:search path | scheme:ring

    `init_search_path` copies PATH and cuts the copy at its colons: each colon becomes a NUL, and
    the start of each piece goes into a node of `path_dir_list`. The addresses that `malloc` returns
    are parameters, `dir` for the copy and `node k` for the nodes; `empty` is the literal `""`. The
    loops are bounded by `fuel`.

        PATH        / b i n : : / u s r
        copy        / b i n 0 0 / u s r 0
                    │         │ │
        list        ▼ ──────▶ ▼ ▼          "/bin"  ""  "/usr"                      -/

namespace OsLabs.Sh
open Schemes

abbrev colon : UInt8 := 58

/-- `while (*s != ':' && *s != 0) s++` -/
def toColon (t : Text) : ℕ → ℕ → Option ℕ
  | 0, _ => none
  | fuel + 1, s => do
    let c ← t.get s
    if c ≠ colon ∧ c ≠ 0 then toColon t fuel (s + 1) else some s

/-- The characters and the nodes, `path_dir_list`, `dir_start`, and how many nodes there are. -/
structure Search where
  text : Text
  heap : Heap
  list : ℕ
  dirStart : ℕ
  nodes : ℕ

/-- `while (proceed)`; `n` bounds the inner loop. -/
def searchLoop (node : ℕ → ℕ) (n : ℕ) : ℕ → Search → Option Search
  | 0, _ => none
  | fuel + 1, st => do
    let s ← toColon st.text n st.dirStart
    let c ← st.text.get s
    let text ← if c = colon then st.text.set s 0 else some st.text
    let (heap, list) ← insertLast (node st.nodes) st.dirStart st.list st.heap
    let st := ⟨text, heap, list, s + 1, st.nodes + 1⟩
    if c = colon then searchLoop node n fuel st else some st

/-- `init_search_path`, where `getenv("PATH")` returns `path` and `malloc` succeeds. -/
def initSearchPath (node : ℕ → ℕ) (fuel dir empty path : ℕ) (text : Text) (heap : Heap) :
    Option Search := do
  let n ← text.strlen fuel path
  let text ← Text.strcpy fuel dir path (text.malloc dir (1 + n))
  let unset ← if path = null then some true else (text.get path).map (· == 0)
  if unset then
    let heap ← newList (node 0) empty heap
    some ⟨text, heap, node 0, dir, 1⟩
  else searchLoop node fuel fuel ⟨text, heap, null, dir, 0⟩

/-- What `getenv("PATH")` returns: a string `v`, or NULL. -/
structure Environment (t : Text) (empty path : ℕ) (v : List UInt8) : Prop where
  dead : t.live null = false
  literal : t.Holds empty [0]
  noNul : 0 ∉ v
  set : path ≠ null → t.Holds path (v ++ [0])
  unset : path = null → v = []

/-- The data of the nodes point to the strings `ps`. -/
def Strung (st : Search) (l : List ℕ) (ps : List (List UInt8)) : Prop :=
  List.Forall₂ (fun d p => st.text.Holds d (p ++ [0])) (l.map st.heap.data) ps

/-- `path_dir_list`, read along `succ`, has the pieces of `v` between its colons. -/
def Splits (st : Search) (v : List UInt8) : Prop := ∃ l ps, st.heap.Holds l ∧
  st.list = l.headD null ∧ Strung st l ps ∧ (∀ p ∈ ps, colon ∉ p) ∧ [colon].intercalate ps = v ∧
    l.length = v.count colon + 1

/-- Nodes for the calls from the `k`-th on. -/
def Supply (h : Heap) (node : ℕ → ℕ) (k n : ℕ) : Prop :=
  (∀ j, k ≤ j → j < n → h.Fresh (node j)) ∧ ∀ i j, k ≤ i → i < j → j < n → node i ≠ node j

section search
variable {t : Text} {h : Heap} {node : ℕ → ℕ} {st : Search} {m rest : List UInt8}
  {l : List ℕ} {ps : List (List UInt8)} {s n fuel : ℕ} {c : UInt8}

/-- The inner loop stops at the first colon or NUL. -/
theorem toColon_eq (ht : t.Holds s (m ++ c :: rest)) (hm : colon ∉ m) (h0 : 0 ∉ m)
    (hc : c = colon ∨ c = 0) (hfuel : m.length < fuel) :
    toColon t fuel s = some (s + m.length) := by
  induction m generalizing s fuel with
  | nil =>
    obtain ⟨fuel, rfl⟩ := Nat.exists_eq_add_one.mpr hfuel
    rw [toColon, ht.get, Option.bind_eq_bind, Option.bind_some, if_neg]
    · rfl
    · exact fun hne => hc.elim hne.1 hne.2
  | cons d m ih =>
    obtain ⟨fuel, rfl⟩ := Nat.exists_eq_add_one.mpr (Nat.zero_lt_of_lt hfuel)
    rw [List.mem_cons, not_or] at hm h0
    have hget : t.get s = some d := ht.get
    rw [toColon, hget, Option.bind_eq_bind, Option.bind_some,
      if_pos ⟨Ne.symm hm.1, Ne.symm h0.1⟩, ih ht.tail hm.2 h0.2 (Nat.lt_of_succ_lt_succ hfuel),
      List.length_cons, Nat.add_assoc, Nat.add_comm 1]

/-- The pieces that have been cut off end before `dir_start`. -/
structure Cutting (st : Search) (l : List ℕ) (ps : List (List UInt8)) : Prop where
  holds : st.heap.Holds l
  list : st.list = l.headD null
  pieces : List.Forall₂ (fun d p => st.text.Holds d (p ++ [0]) ∧ d + p.length < st.dirStart)
    (l.map st.heap.data) ps

/-- The next piece goes to the end of the list. -/
theorem Cutting.insert {text : Text} {p : ℕ} (hc : Cutting st l ps) (hp : st.heap.Fresh p)
    (hm : text.Holds st.dirStart (m ++ [0]))
    (hbyte : ∀ i < st.dirStart, text.byte i = st.text.byte i) (hlive : text.live = st.text.live) :
    ∃ heap list, insertLast p st.dirStart st.list st.heap = some (heap, list) ∧
      Cutting ⟨text, heap, list, st.dirStart + m.length + 1, st.nodes + 1⟩ (l ++ [p]) (ps ++ [m]) ∧
        ∀ i, i ∉ l → i ≠ p → st.heap.Same heap i := by
  obtain ⟨heap, list, hins, hg⟩ := insertLast_spec hc.holds hp st.dirStart
  rw [← hc.list] at hins
  refine ⟨heap, list, hins, ⟨hg.holds, hg.head, ?_⟩, fun i hi hip => hg.frame i hi ?_⟩
  · have hold : List.Forall₂ (fun d p => text.Holds d (p ++ [0]) ∧
        d + p.length < st.dirStart + m.length + 1) (l.map st.heap.data) ps := by
      refine hc.pieces.imp fun d q hq => ⟨hq.1.congr (fun i hi => hbyte _ ?_) ?_, by omega⟩
      · rw [List.length_append, List.length_singleton] at hi
        omega
      · intro i _ hl
        rwa [hlive]
    rw [hg.values]
    exact List.rel_append hold (.cons ⟨hm, Nat.lt_succ_self _⟩ .nil)
  · rw [List.mem_append, List.mem_singleton, not_or]
    exact ⟨hi, hip⟩

/-- An allocation leaves the nodes behind it. -/
theorem Supply.next {h' : Heap} {k : ℕ} (hs : Supply h node k n) (hl : h.Holds l)
    (hsame : ∀ i, i ∉ l → i ≠ node k → h.Same h' i) : Supply h' node (k + 1) n := by
  refine ⟨fun j hkj hj => ?_, fun i j hi => hs.2 i j (Nat.le_of_succ_le hi)⟩
  obtain ⟨hnull, hlt, hdead⟩ := hs.1 j (Nat.le_of_succ_le hkj) hj
  have hout : node j ∉ l := fun hmem => by
    rw [hl.live _ hmem] at hdead
    cases hdead
  have hsame' := hsame (node j) hout (hs.2 k j (Nat.le_refl k) hkj hj).symm
  exact ⟨hnull, hlt, hsame'.live.trans hdead⟩

/-- The outer loop puts the pieces of what is left behind those it has. -/
theorem searchLoop_cuts {k : ℕ} (hc : Cutting st l ps)
    (ht : st.text.Holds st.dirStart (rest ++ [0])) (h0 : 0 ∉ rest)
    (hs : Supply st.heap node st.nodes k) (hk : st.nodes + rest.length < k) : ∃ st' l',
      (∀ n fuel, rest.length < n → rest.length < fuel → searchLoop node n fuel st = some st') ∧
        Cutting st' l' (ps ++ rest.splitOn colon) := by
  -- by what is left to cut: a trip that finds a colon leaves less
  induction hlen : rest.length using Nat.strongRecOn generalizing st l ps rest with
  | ind len ih =>
    have hp : st.heap.Fresh (node st.nodes) := hs.1 _ (Nat.le_refl _) (by omega)
    by_cases hcolon : colon ∈ rest
    · obtain ⟨m, r, rfl, hm⟩ := List.eq_append_cons_of_mem hcolon
      rw [List.mem_append, List.mem_cons, not_or, not_or] at h0
      rw [List.length_append, List.length_cons] at hk hlen
      rw [List.append_assoc, List.cons_append] at ht
      obtain ⟨hfirst, hrest⟩ := Text.Holds.append_iff.mp ht
      have hset : st.text.set (st.dirStart + m.length) 0 = some { st.text with
          byte := Function.update st.text.byte (st.dirStart + m.length) 0 } :=
        if_pos (hrest.live 0 (Nat.zero_lt_succ _))
      have hnul := (hfirst.set hset fun i hi => by omega).snoc_nul hset
      have hrest' := hrest.tail.set hset fun i _ => by omega
      obtain ⟨heap, list, hins, hc', hsame⟩ := hc.insert hp hnul
        (fun i hi => Function.update_of_ne (by omega) ..) rfl
      have hk' : st.nodes + 1 + r.length < k := by omega
      obtain ⟨st', l', hloop, hc''⟩ := ih r.length (by omega) hc' hrest' h0.2.2
        (hs.next hc.holds hsame) hk' rfl
      refine ⟨st', l', fun n fuel hn hfuel => ?_, ?_⟩
      · obtain ⟨fuel, rfl⟩ := Nat.exists_eq_add_one.mpr (Nat.zero_lt_of_lt hfuel)
        have hto : toColon st.text n st.dirStart = some (st.dirStart + m.length) :=
          toColon_eq ht hm h0.1 (.inl rfl) (by omega)
        simp only [searchLoop, hto, hrest.get, if_true, hset, hins, Option.bind_eq_bind,
          Option.bind_some]
        exact hloop n fuel (by omega) (by omega)
      · rwa [List.splitOn_append_cons_self_of_not_mem hm, List.append_cons]
    · have hget := (Text.Holds.append_iff.mp ht).2.get
      obtain ⟨heap, list, hins, hc', -⟩ := hc.insert hp ht (fun _ _ => rfl) rfl
      refine ⟨_, _, fun n fuel hn hfuel => ?_, List.splitOn_eq_singleton hcolon ▸ hc'⟩
      obtain ⟨fuel, rfl⟩ := Nat.exists_eq_add_one.mpr (Nat.zero_lt_of_lt hfuel)
      have hto : toColon st.text n st.dirStart = some (st.dirStart + rest.length) :=
        toColon_eq ht hcolon h0 (.inr rfl) (by omega)
      simp only [searchLoop, hto, hget, hins, Option.bind_eq_bind, Option.bind_some]
      rfl

/-- The list that the loop has built. -/
theorem Cutting.splits {v : List UInt8} (hc : Cutting st l (v.splitOn colon)) : Splits st v := by
  refine ⟨l, v.splitOn colon, hc.holds, hc.list, hc.pieces.imp fun _ _ hp => hp.1,
    fun p hp => not_mem_splitOn hp, List.intercalate_splitOn colon, ?_⟩
  rw [← length_splitOn, ← hc.pieces.length_eq, List.length_map]

end search

/-- The list of the empty string. -/
theorem splits_empty {t : Text} {h : Heap} {p empty dir : ℕ} (ht : t.Holds empty [0])
    (hh : h.Holds [p]) (hd : h.data p = empty) : Splits ⟨t, h, p, dir, 1⟩ [] := by
  refine ⟨[p], [[]], hh, rfl, ?_, ?_, rfl, rfl⟩
  · rw [Strung, List.map_singleton, hd]
    exact .cons ht .nil
  · intro q hq
    rw [List.mem_singleton.mp hq]
    exact List.not_mem_nil

section environment
variable {t : Text} {h : Heap} {node : ℕ → ℕ} {dir empty path : ℕ} {v : List UInt8}

/-- PATH is set. -/
theorem initSearchPath_set (he : Environment t empty path v) (hdir : t.Fresh dir (v.length + 1))
    (hnode : Supply h node 0 (v.length + 1)) (hpath : path ≠ null) : ∃ st,
      (∀ fuel, v.length < fuel → initSearchPath node fuel dir empty path t h = some st) ∧
        Splits st v := by
  have hset := he.set hpath
  obtain ⟨t', hcpy, hcopy, hkeep⟩ := Text.strcpy_malloc hdir hset he.noNul
  have hget : t'.get path = some (v.headD 0) := by
    cases v with
    | nil => exact (hkeep _ _ hset).get
    | cons c v => exact (hkeep _ _ hset).get
  have hunset : (t'.get path).map (· == 0) = some (decide (v = [])) := by
    rw [hget, Option.map_some]
    cases v with
    | nil => rfl
    | cons c v =>
      have hc : c ≠ 0 := fun hc => he.noNul (hc ▸ List.mem_cons_self ..)
      rw [List.headD_cons, beq_eq_false_iff_ne.mpr hc]
      rfl
  by_cases hv : v = []
  · subst hv
    obtain ⟨h', hnew, hholds, hdata, -⟩ :=
      newList_spec (hnode.1 0 (Nat.le_refl _) (Nat.zero_lt_succ _)) empty
    refine ⟨⟨t', h', node 0, dir, 1⟩, fun fuel hfuel => ?_,
      splits_empty (hkeep _ _ he.literal) hholds hdata⟩
    simp only [initSearchPath, Text.strlen_eq hset he.noNul hfuel, hcpy fuel hfuel, if_neg hpath,
      hunset, hnew, decide_true, if_true, Option.bind_eq_bind, Option.bind_some]
  · have hstart : Cutting ⟨t', h, null, dir, 0⟩ [] [] := ⟨Heap.holds_nil, rfl, .nil⟩
    obtain ⟨st, l, hloop, hc⟩ := searchLoop_cuts hstart hcopy he.noNul hnode
      (by rw [Nat.zero_add]; exact Nat.lt_succ_self _)
    refine ⟨st, fun fuel hfuel => ?_, hc.splits⟩
    simp only [initSearchPath, Text.strlen_eq hset he.noNul hfuel, hcpy fuel hfuel, if_neg hpath,
      hunset, hv, decide_false, Option.bind_eq_bind, Option.bind_some]
    exact hloop fuel fuel hfuel hfuel

/-- PATH is not set. -/
theorem initSearchPath_unset (he : Environment t empty null v) (node : ℕ → ℕ) (dir : ℕ) (h : Heap)
    (fuel : ℕ) :
    initSearchPath node fuel dir empty null t h = none := by
  cases fuel with
  | zero => rfl
  | succ fuel =>
    have hget : t.get null = none := if_neg (by rw [he.dead]; exact Bool.false_ne_true)
    rw [initSearchPath, Text.strlen, hget]
    rfl

/-- CORRECT (search path): `init_search_path` ends with the list of the pieces of PATH exactly when
    PATH is set. -/
theorem searchPath_splits_iff (he : Environment t empty path v)
    (hdir : t.Fresh dir (v.length + 1)) (hnode : Supply h node 0 (v.length + 1)) :
    (∃ st, (∀ fuel, v.length < fuel → initSearchPath node fuel dir empty path t h = some st) ∧
      Splits st v) ↔ path ≠ null := by
  refine ⟨?_, initSearchPath_set he hdir hnode⟩
  rintro ⟨st, hrun, -⟩ rfl
  have hnone := initSearchPath_unset he node dir h (v.length + 1)
  rw [hrun _ (Nat.lt_succ_self _)] at hnone
  cases hnone

end environment

/-- Nodes at 1, 2, and so on. -/
theorem supply_succ {n : ℕ} (hn : n < 2 ^ 64) :
    Supply ⟨fun _ => false, id, id, id⟩ (· + 1) 0 n := by
  refine ⟨fun j _ hj => ⟨Nat.succ_ne_zero j, show j + 1 < 2 ^ 64 by omega, rfl⟩, ?_⟩
  exact fun i j _ hij _ he => Nat.ne_of_lt hij (Nat.succ.inj he)

/-- PATH is `:`; the list is that of two empty strings. -/
theorem searchPath_splits_iff_colon : ∃ st, (∀ fuel, 1 < fuel → initSearchPath (· + 1) fuel 10 1 2
    ⟨fun i => if i = 2 then colon else 0, fun i => decide (1 ≤ i ∧ i ≤ 3)⟩
      ⟨fun _ => false, id, id, id⟩ = some st) ∧ Splits st [colon] := by
  have he : Environment ⟨fun i => if i = 2 then colon else 0, fun i => decide (1 ≤ i ∧ i ≤ 3)⟩ 1 2
      [colon] := by
    refine ⟨rfl, ⟨⟨rfl, trivial⟩, by decide⟩, by decide,
      fun _ => ⟨⟨rfl, rfl, trivial⟩, by decide⟩, ?_⟩
    exact fun h => by cases h
  exact (searchPath_splits_iff he ⟨by decide, by decide, by decide⟩
    (supply_succ (by decide))).mpr (by decide)

/-- PATH is not set: `strlen` reads through NULL before the test for it. -/
theorem unset_path : Environment ⟨fun _ => 0, fun i => i == 1⟩ 1 null [] ∧
    Text.Fresh ⟨fun _ => 0, fun i => i == 1⟩ 10 1 ∧
      Supply ⟨fun _ => false, id, id, id⟩ (· + 1) 0 1 ∧
        ∀ fuel, initSearchPath (· + 1) fuel 10 1 null ⟨fun _ => 0, fun i => i == 1⟩
          ⟨fun _ => false, id, id, id⟩ = none := by
  have he : Environment ⟨fun _ => 0, fun i => i == 1⟩ 1 null [] :=
    ⟨rfl, ⟨⟨rfl, trivial⟩, by decide⟩, List.not_mem_nil, fun h => absurd rfl h, fun _ => rfl⟩
  exact ⟨he, ⟨by decide, by decide, by decide⟩, supply_succ (by decide),
    initSearchPath_unset he _ _ _⟩

end OsLabs.Sh
