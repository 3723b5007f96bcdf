import Mathlib.Algebra.Group.Nat.Defs
import OsLabs.Schemes.Loop
import OsLabs.Schemes.Ring

/-! @src lab1_shell/list.c | name:list | scheme:ring

    The circular lists of the shell. A pointer is a number and NULL is 0; reading or writing through
    one that is not an allocated node has no meaning (`none`). The address that `malloc` returns is
    a parameter of the functions that allocate. A `list_t **` argument is the value of the variable
    on entry, and its value on exit is part of the result.

    Over the nodes a list is a ring, over the data a sequence: `insert_last`, `insert_before` and
    `append` work at its end, which is one step back from its beginning. -/

namespace OsLabs.Sh
open Schemes

abbrev null : ℕ := 0

/-- The nodes: which addresses are allocated, and the fields there. -/
structure Heap where
  live : ℕ → Bool
  succ : ℕ → ℕ
  pred : ℕ → ℕ
  data : ℕ → ℕ

namespace Heap
variable (h : Heap) (p v : ℕ)

/-- `p->succ` -/
def getSucc : Option ℕ := if h.live p then some (h.succ p) else none

/-- `p->pred` -/
def getPred : Option ℕ := if h.live p then some (h.pred p) else none

/-- `p->data` -/
def getData : Option ℕ := if h.live p then some (h.data p) else none

/-- `p->succ = v` -/
def setSucc : Option Heap :=
  if h.live p then some { h with succ := Function.update h.succ p v } else none

/-- `p->pred = v` -/
def setPred : Option Heap :=
  if h.live p then some { h with pred := Function.update h.pred p v } else none

/-- `p->data = v` -/
def setData : Option Heap :=
  if h.live p then some { h with data := Function.update h.data p v } else none

/-- `malloc`, which returns `p`. -/
def malloc : Heap := { h with live := Function.update h.live p true }

def free : Option Heap :=
  if h.live p then some { h with live := Function.update h.live p false } else none

end Heap

/-! ### The functions -/

/-- `new_list`, at the address `p`. -/
def newList (p data : ℕ) (h : Heap) : Option Heap := do
  let h := h.malloc p
  let h ← h.setPred p p
  let h ← h.setSucc p p
  h.setData p data

def splice (list1 list2 : ℕ) (h : Heap) : Option Heap := do
  let h ← h.setSucc (← h.getPred list1) list2
  let h ← h.setSucc (← h.getPred list2) list1
  let tmp ← h.getPred list1
  let h ← h.setPred list1 (← h.getPred list2)
  h.setPred list2 tmp

/-- What `insert_last` and `append` do with their two lists. -/
def join (list1 list2 : ℕ) (h : Heap) : Option (Heap × ℕ) := do
  if list1 = null then
    return (h, list2)
  else if list2 ≠ null then
    return (← splice list1 list2 h, list1)
  else
    return (h, list1)

def insertLast (p data list1 : ℕ) (h : Heap) : Option (Heap × ℕ) := do
  let h ← newList p data h
  join list1 p h

def append (list1 list2 : ℕ) (h : Heap) : Option (Heap × ℕ) := join list1 list2 h

def deleteList (list : ℕ) (h : Heap) : Option Heap := do
  let h ← h.setSucc (← h.getPred list) (← h.getSucc list)
  let h ← h.setPred (← h.getSucc list) (← h.getPred list)
  h.free list

def insertBefore (p data list : ℕ) (h : Heap) : Option (Heap × ℕ) := do
  let h ← newList p data h
  if list = null then
    return (h, p)
  else
    let (h, _) ← append p list h
    return (h, list)

def insertAfter (p data list : ℕ) (h : Heap) : Option (Heap × ℕ) := do
  let h ← newList p data h
  if list = null then
    return (h, p)
  else
    let q ← h.getSucc list
    let (h, _) ← append q p h
    return (h, list)

/-- One trip of the loop of `length`. -/
def lengthTrip (list : ℕ) (h : Heap) (st : ℕ × ℕ) : (ℕ × ℕ) ⊕ Option ℕ :=
  match h.getSucc st.1 with
  | none => .inr none
  | some p =>
    if p ≠ list then .inl (p, (st.2 + 1) % 2 ^ 32) else .inr (some ((st.2 + 1) % 2 ^ 32))

def length (fuel list : ℕ) (h : Heap) : Option ℕ :=
  if list = null then some 0 else (iter (lengthTrip list h) fuel (list, 0)).join

/-- The heap, `*list` and the data returned. -/
def removeFirst (list : ℕ) (h : Heap) : Option (Heap × ℕ × ℕ) := do
  if list = null then
    return (h, list, null)
  else
    let data ← h.getData list
    let next ← h.getSucc list
    let h ← deleteList list h
    return (h, if list = next then null else next, data)

/-! ### Heaps that hold rings -/

section heaps
variable {h h' : Heap} {a b p d : ℕ} {l m : List ℕ}

/-- The nodes of `l` are allocated and form a ring. -/
structure Heap.Holds (h : Heap) (l : List ℕ) : Prop where
  ring : Ring h.succ h.pred l
  live : ∀ n ∈ l, h.live n = true
  ne_null : ∀ n ∈ l, n ≠ null

theorem Heap.holds_nil : h.Holds [] :=
  ⟨Ring.nil, List.forall_mem_nil _, List.forall_mem_nil _⟩

/-- `malloc` may return `p`. -/
def Heap.Fresh (h : Heap) (p : ℕ) : Prop := p ≠ null ∧ p < 2 ^ 64 ∧ h.live p = false

/-- Nothing about `n` has changed. -/
structure Heap.Same (h h' : Heap) (n : ℕ) : Prop where
  live : h'.live n = h.live n
  succ : h'.succ n = h.succ n
  pred : h'.pred n = h.pred n
  data : h'.data n = h.data n

theorem Heap.Same.refl (h : Heap) (n : ℕ) : h.Same h n := ⟨rfl, rfl, rfl, rfl⟩

theorem Heap.Same.trans {h'' : Heap} {n : ℕ} (hs : h.Same h' n) (hs' : h'.Same h'' n) :
    h.Same h'' n :=
  ⟨hs'.live.trans hs.live, hs'.succ.trans hs.succ, hs'.pred.trans hs.pred, hs'.data.trans hs.data⟩

theorem Heap.Holds.congr (hh : h.Holds l) (hs : ∀ n ∈ l, h.Same h' n) : h'.Holds l :=
  ⟨hh.ring.congr (fun n hn => (hs n hn).succ) fun n hn => (hs n hn).pred,
    fun n hn => (hs n hn).live.trans (hh.live n hn), hh.ne_null⟩

theorem Heap.Holds.rotate (hh : h.Holds (l ++ m)) : h.Holds (m ++ l) :=
  ⟨hh.ring.rotate, fun n hn => hh.live n (List.mem_append.mpr (List.mem_append.mp hn).symm),
    fun n hn => hh.ne_null n (List.mem_append.mpr (List.mem_append.mp hn).symm)⟩

/-- `new_list` makes a ring of one node. -/
theorem newList_spec (hp : h.Fresh p) (d : ℕ) : ∃ h', newList p d h = some h' ∧ h'.Holds [p] ∧
    h'.data p = d ∧ ∀ n, n ≠ p → h.Same h' n := by
  refine ⟨⟨Function.update h.live p true, Function.update h.succ p p, Function.update h.pred p p,
    Function.update h.data p d⟩, ?_, ⟨Ring.single ?_ ?_, fun n hn => ?_, fun n hn => ?_⟩, ?_,
    fun n hn => ?_⟩
  · simp [newList, Heap.malloc, Heap.setPred, Heap.setSucc, Heap.setData]
  · exact Function.update_self ..
  · exact Function.update_self ..
  · obtain rfl := List.mem_singleton.mp hn
    exact Function.update_self ..
  · obtain rfl := List.mem_singleton.mp hn
    exact hp.1
  · exact Function.update_self ..
  · exact ⟨Function.update_of_ne hn .., Function.update_of_ne hn .., Function.update_of_ne hn ..,
      Function.update_of_ne hn ..⟩

/-- The five statements join two rings. -/
theorem splice_spec (hl : h.Holds (a :: l)) (hm : h.Holds (b :: m))
    (hd : ∀ x ∈ a :: l, ∀ y ∈ b :: m, x ≠ y) : ∃ h', splice a b h = some h' ∧
      h'.Holds (a :: l ++ b :: m) ∧ h'.data = h.data ∧
      ∀ n, n ∉ a :: l → n ∉ b :: m → h.Same h' n := by
  have ha := hl.live a (List.mem_cons_self ..)
  have hb := hm.live b (List.mem_cons_self ..)
  have hza := hl.live _ hl.ring.pv_mem
  have hzb := hm.live _ hm.ring.pv_mem
  refine ⟨{ h with
    succ := Function.update (Function.update h.succ (h.pred a) b) (h.pred b) a
    pred := Function.update (Function.update h.pred a (h.pred b)) b (h.pred a) },
    ?_, ⟨hl.ring.splice hm.ring hd, fun n hn => ?_, fun n hn => ?_⟩, rfl, fun n hna hnb => ?_⟩
  · simp [splice, Heap.getPred, Heap.setSucc, Heap.setPred, ha, hb, hza, hzb]
  · exact (List.mem_append.mp hn).elim (hl.live n) (hm.live n)
  · exact (List.mem_append.mp hn).elim (hl.ne_null n) (hm.ne_null n)
  · have hne : ∀ x ∈ a :: l, n ≠ x := fun x hx hnx => hna (hnx ▸ hx)
    have hne' : ∀ x ∈ b :: m, n ≠ x := fun x hx hnx => hnb (hnx ▸ hx)
    refine ⟨rfl, ?_, ?_, rfl⟩
    · exact (Function.update_of_ne (hne' _ hm.ring.pv_mem) ..).trans
        (Function.update_of_ne (hne _ hl.ring.pv_mem) ..)
    · exact (Function.update_of_ne (hne' b (List.mem_cons_self ..)) ..).trans
        (Function.update_of_ne (hne a (List.mem_cons_self ..)) ..)

/-- `delete_list` takes the first node out and gives it back. -/
theorem deleteList_spec (hl : h.Holds (a :: l)) : ∃ h', deleteList a h = some h' ∧ h'.Holds l ∧
    h'.data = h.data ∧ ∀ n, n ∉ a :: l → h.Same h' n := by
  have ha := hl.live a (List.mem_cons_self ..)
  have hz := hl.live _ hl.ring.pv_mem
  have hs := hl.live _ hl.ring.nx_mem
  have hkeep : Function.update h.succ (h.pred a) (h.succ a) a = h.succ a := by
    by_cases hza : a = h.pred a
    · rw [← hza, Function.update_self]
    · exact Function.update_of_ne hza ..
  refine ⟨{ h with
    live := Function.update h.live a false
    succ := Function.update h.succ (h.pred a) (h.succ a)
    pred := Function.update h.pred (h.succ a) (h.pred a) },
    ?_, ⟨?_, fun n hn => ?_, fun n hn => hl.ne_null n (List.mem_cons_of_mem _ hn)⟩, rfl,
    fun n hn => ?_⟩
  · simp [deleteList, Heap.getPred, Heap.getSucc, Heap.setSucc, Heap.setPred, Heap.free, ha, hz,
      hs, hkeep]
  · cases l with
    | nil => exact Ring.nil
    | cons b l => exact hl.ring.unlink
  · have hna : n ≠ a := fun h => (List.nodup_cons.mp hl.ring.nodup).1 (h ▸ hn)
    exact (Function.update_of_ne hna ..).trans (hl.live n (List.mem_cons_of_mem _ hn))
  · have hne : ∀ x ∈ a :: l, n ≠ x := fun x hx hnx => hn (hnx ▸ hx)
    exact ⟨Function.update_of_ne (hne a (List.mem_cons_self ..)) ..,
      Function.update_of_ne (hne _ hl.ring.pv_mem) ..,
      Function.update_of_ne (hne _ hl.ring.nx_mem) .., rfl⟩

end heaps

/-! ### What each function makes of a list -/

section functions
variable {h h' : Heap} {p d : ℕ} {l m : List ℕ}

/-- From the list `l` in `h`, a list `l'` of the data `xs'` in `h'`, where `*list` is `list'`. Its
    nodes are old or new, and no other node has changed. -/
structure Gives (h : Heap) (l : List ℕ) (h' : Heap) (list' : ℕ) (l' xs' : List ℕ) : Prop where
  holds : h'.Holds l'
  head : list' = l'.headD null
  values : l'.map h'.data = xs'
  nodes : ∀ n ∈ l', n ∈ l ∨ h.live n = false
  frame : ∀ n, n ∉ l → n ∉ l' → h.Same h' n

theorem join_spec (hl : h.Holds l) (hm : h.Holds m) (hd : ∀ x ∈ l, ∀ y ∈ m, x ≠ y) :
    ∃ h', join (l.headD null) (m.headD null) h = some (h', (l ++ m).headD null) ∧
      h'.Holds (l ++ m) ∧ h'.data = h.data ∧ ∀ n, n ∉ l → n ∉ m → h.Same h' n := by
  cases l with
  | nil => exact ⟨h, rfl, hm, rfl, fun n _ _ => .refl h n⟩
  | cons a l =>
    have ha : a ≠ null := hl.ne_null a (List.mem_cons_self ..)
    rw [List.headD_cons, join, if_neg ha]
    cases m with
    | nil =>
      rw [List.append_nil]
      exact ⟨h, rfl, hl, rfl, fun n _ _ => .refl h n⟩
    | cons b m =>
      have hb : b ≠ null := hm.ne_null b (List.mem_cons_self ..)
      obtain ⟨h', hsplice, hholds, hdata, hsame⟩ := splice_spec hl hm hd
      refine ⟨h', ?_, hholds, hdata, hsame⟩
      rw [List.headD_cons, if_pos hb, hsplice]
      rfl

/-- `append(l1, l2)` gives xs1 ++ xs2. -/
theorem append_spec (hl : h.Holds l) (hm : h.Holds m) (hd : ∀ x ∈ l, ∀ y ∈ m, x ≠ y) :
    ∃ h' list', append (l.headD null) (m.headD null) h = some (h', list') ∧
      Gives h (l ++ m) h' list' (l ++ m) (l.map h.data ++ m.map h.data) := by
  obtain ⟨h', hjoin, hholds, hdata, hsame⟩ := join_spec hl hm hd
  refine ⟨h', _, hjoin, hholds, rfl, ?_, fun n hn => Or.inl hn, fun n hn _ => ?_⟩
  · rw [hdata, List.map_append]
  · rw [List.mem_append, not_or] at hn
    exact hsame n hn.1 hn.2

/-- A new node beside a list. -/
theorem newList_beside (hl : h.Holds l) (hp : h.Fresh p) (d : ℕ) : ∃ h', newList p d h = some h' ∧
    h'.Holds l ∧ h'.Holds [p] ∧ (∀ x ∈ l, ∀ y ∈ [p], x ≠ y) ∧ l.map h'.data = l.map h.data ∧
    h'.data p = d ∧ ∀ n, n ≠ p → h.Same h' n := by
  obtain ⟨h', hnew, hholds, hdata, hsame⟩ := newList_spec hp d
  have hne : ∀ x ∈ l, x ≠ p := by
    rintro x hx rfl
    exact Bool.false_ne_true (hp.2.2.symm.trans (hl.live x hx))
  refine ⟨h', hnew, hl.congr fun n hn => hsame n (hne n hn), hholds, fun x hx y hy => ?_,
    List.map_congr_left fun n hn => (hsame n (hne n hn)).data, hdata, hsame⟩
  obtain rfl := List.mem_singleton.mp hy
  exact hne x hx

/-- A list of the old nodes and the new one. -/
theorem Gives.of_new {h₁ : Heap} {l' : List ℕ} (hp : h.Fresh p) (hsame : ∀ n, n ≠ p → h.Same h₁ n)
    (hholds : h'.Holds l') (hdata : h'.data = h₁.data) (hmem : ∀ n, n ∈ l' ↔ n ∈ l ∨ n = p)
    (hsame' : ∀ n, n ∉ l → n ≠ p → h₁.Same h' n) :
    Gives h l h' (l'.headD null) l' (l'.map h₁.data) := by
  refine ⟨hholds, rfl, by rw [hdata], fun n hn => ?_, fun n hnl hn => ?_⟩
  · refine ((hmem n).mp hn).imp id ?_
    rintro rfl
    exact hp.2.2
  · have hne : n ≠ p := fun h => hn ((hmem n).mpr (Or.inr h))
    exact (hsame n hne).trans (hsame' n hnl hne)

/-- The new node alone. -/
theorem Gives.alone {h₁ : Heap} (hp : h.Fresh p) (hholds : h₁.Holds [p]) (hpd : h₁.data p = d)
    (hsame : ∀ n, n ≠ p → h.Same h₁ n) : Gives h [] h₁ p [p] [d] := by
  have hg := Gives.of_new (l := []) hp hsame hholds rfl (fun n => by simp)
    fun n _ _ => .refl h₁ n
  rwa [List.map_singleton, hpd] at hg

/-- `insert_last(l, d)` gives xs ++ [d]. -/
theorem insertLast_spec (hl : h.Holds l) (hp : h.Fresh p) (d : ℕ) :
    ∃ h' list', insertLast p d (l.headD null) h = some (h', list') ∧
      Gives h l h' list' (l ++ [p]) (l.map h.data ++ [d]) := by
  obtain ⟨h₁, hnew, hl₁, hp₁, hd, hdata, hpd, hsame⟩ := newList_beside hl hp d
  obtain ⟨h', hjoin, hholds, hdata', hsame'⟩ := join_spec hl₁ hp₁ hd
  refine ⟨h', (l ++ [p]).headD null, ?_, ?_⟩
  · rw [insertLast, hnew]
    exact hjoin
  · have hg := Gives.of_new hp hsame hholds hdata'
      (fun n => by rw [List.mem_append, List.mem_singleton])
      fun n hn hne => hsame' n hn (by rwa [List.mem_singleton])
    rwa [List.map_append, hdata, List.map_singleton, hpd] at hg

/-- So does `insert_before(l, d)`. -/
theorem insertBefore_spec (hl : h.Holds l) (hp : h.Fresh p) (d : ℕ) :
    ∃ h' list', insertBefore p d (l.headD null) h = some (h', list') ∧
      Gives h l h' list' (l ++ [p]) (l.map h.data ++ [d]) := by
  obtain ⟨h₁, hnew, hl₁, hp₁, hd, hdata, hpd, hsame⟩ := newList_beside hl hp d
  cases l with
  | nil =>
    refine ⟨h₁, p, ?_, Gives.alone hp hp₁ hpd hsame⟩
    rw [insertBefore, hnew]
    rfl
  | cons a l =>
    have ha : a ≠ null := hl.ne_null a (List.mem_cons_self ..)
    obtain ⟨h', hjoin, hholds, hdata', hsame'⟩ :=
      join_spec hp₁ hl₁ fun x hx y hy => (hd y hy x hx).symm
    have hg := Gives.of_new hp hsame hholds.rotate hdata'
      (fun n => by rw [List.mem_append, List.mem_singleton])
      fun n hn hne => hsame' n (by rwa [List.mem_singleton]) hn
    rw [List.map_append, hdata, List.map_singleton, hpd] at hg
    refine ⟨h', a, ?_, hg⟩
    rw [insertBefore, hnew, List.headD_cons]
    simp only [Option.bind_eq_bind, Option.bind_some, if_neg ha]
    exact congrArg (Option.bind · _) hjoin

/-- A datum after the first. -/
def insertSecond (d : ℕ) : List ℕ → List ℕ
  | [] => [d]
  | x :: xs => x :: d :: xs

/-- `insert_after(l, d)` gives x :: d :: xs'. -/
theorem insertAfter_spec (hl : h.Holds l) (hp : h.Fresh p) (d : ℕ) :
    ∃ h' list', insertAfter p d (l.headD null) h = some (h', list') ∧
      Gives h l h' list' (insertSecond p l) (insertSecond d (l.map h.data)) := by
  obtain ⟨h₁, hnew, hl₁, hp₁, hd, hdata, hpd, hsame⟩ := newList_beside hl hp d
  cases l with
  | nil =>
    refine ⟨h₁, p, ?_, Gives.alone hp hp₁ hpd hsame⟩
    rw [insertAfter, hnew]
    rfl
  | cons a l =>
    have ha : a ≠ null := hl.ne_null a (List.mem_cons_self ..)
    -- the ring as it is read from the second node on
    have hq₁ : h₁.Holds (l ++ [a]) := hl₁.rotate
    have hq : (l ++ [a]).headD null = h₁.succ a := by
      rw [← hl₁.ring.nx_head]
      cases l <;> rfl
    have hmem : ∀ n, n ∈ l ++ [a] ↔ n ∈ a :: l := fun n => by
      rw [List.mem_append, List.mem_singleton, List.mem_cons, or_comm]
    have hdq : ∀ x ∈ l ++ [a], ∀ y ∈ [p], x ≠ y := fun x hx => hd x ((hmem x).mp hx)
    obtain ⟨h', hjoin, hholds, hdata', hsame'⟩ := join_spec hq₁ hp₁ hdq
    rw [List.append_assoc] at hholds
    have hg := Gives.of_new (l := a :: l) hp hsame hholds.rotate hdata'
      (fun n => by simp only [List.mem_append, List.mem_cons, List.not_mem_nil]; tauto)
      fun n hn hne => hsame' n (fun h => hn ((hmem n).mp h)) (by rwa [List.mem_singleton])
    have hvalues : ([a] ++ [p] ++ l).map h₁.data = insertSecond d ((a :: l).map h.data) := by
      rw [← hdata, ← hpd]
      rfl
    rw [hvalues] at hg
    refine ⟨h', a, ?_, hg⟩
    have hlive : h₁.getSucc a = some (h₁.succ a) := if_pos (hl₁.live a (List.mem_cons_self ..))
    rw [insertAfter, hnew, List.headD_cons]
    simp only [Option.bind_eq_bind, Option.bind_some, if_neg ha, hlive, append]
    rw [← hq]
    exact congrArg (Option.bind · _) hjoin

/-- `remove_first(l)` returns x and gives xs'. -/
theorem removeFirst_spec (hl : h.Holds l) :
    ∃ h' list', removeFirst (l.headD null) h = some (h', list', (l.map h.data).headD null) ∧
      Gives h l h' list' l.tail (l.map h.data).tail := by
  cases l with
  | nil =>
    exact ⟨h, null, rfl, hl, rfl, rfl, fun n hn => Or.inl hn, fun n _ _ => .refl h n⟩
  | cons a l =>
    have ha : a ≠ null := hl.ne_null a (List.mem_cons_self ..)
    have hlive := hl.live a (List.mem_cons_self ..)
    obtain ⟨h', hdel, hholds, hdata, hsame⟩ := deleteList_spec hl
    refine ⟨h', l.headD null, ?_, hholds, rfl, ?_, fun n hn => ?_, fun n hn _ => hsame n hn⟩
    · have hnext : (if a = h.succ a then null else h.succ a) = l.headD null := by
        rw [← hl.ring.nx_head]
        cases l with
        | nil => exact if_pos rfl
        | cons b l =>
          have hab : a ≠ b := by
            rintro rfl
            exact (List.nodup_cons.mp hl.ring.nodup).1 (List.mem_cons_self ..)
          exact if_neg hab
      simp [removeFirst, ha, Heap.getData, Heap.getSucc, hlive, hdel, hnext]
    · rw [hdata]
      rfl
    · exact Or.inl (List.mem_cons_of_mem _ hn)

/-- The loop of `length` from the node `b` on. -/
theorem length_trips {a : ℕ} : ∀ {l : List ℕ} {b n : ℕ}, (b :: l).IsChain (Link h.succ h.pred) →
    (∀ z ∈ (b :: l).getLast?, h.succ z = a) → a ∉ l → (∀ x ∈ b :: l, h.live x = true) → n < 2 ^ 32 →
    iter (lengthTrip a h) (l.length + 1) (b, n) = some (some ((n + l.length + 1) % 2 ^ 32))
  | [], b, n, _, hlast, _, hlive, _ => by
      have hget : h.getSucc b = some a := by
        rw [Heap.getSucc, if_pos (hlive b (List.mem_cons_self ..)), hlast b rfl]
      refine iter_inr ?_
      rw [lengthTrip, hget]
      exact if_neg (not_not.mpr rfl)
  | d :: l, b, n, hlinks, hlast, hal, hlive, hn => by
      have hget : h.getSucc b = some d := by
        rw [Heap.getSucc, if_pos (hlive b (List.mem_cons_self ..)),
          (List.rel_of_isChain_cons_cons hlinks).1]
      have hda : d ≠ a := fun h => hal (h ▸ List.mem_cons_self ..)
      have htrip : lengthTrip a h (b, n) = .inl (d, (n + 1) % 2 ^ 32) := by
        rw [lengthTrip, hget]
        exact if_pos hda
      rw [List.getLast?_cons_cons] at hlast
      rw [List.length_cons, iter_inl htrip, length_trips hlinks.tail hlast
        (fun h => hal (List.mem_cons_of_mem _ h)) (fun x hx => hlive x (List.mem_cons_of_mem _ hx))
        (Nat.mod_lt _ (by decide))]
      have hcount : ((n + 1) % 2 ^ 32 + l.length + 1) % 2 ^ 32 =
          (n + (l.length + 1) + 1) % 2 ^ 32 := by omega
      rw [hcount]

/-- `length` counts the nodes in 32 bits. -/
theorem length_spec (hl : h.Holds l) {fuel : ℕ} (hfuel : l.length ≤ fuel) :
    length fuel (l.headD null) h = some (l.length % 2 ^ 32) := by
  cases l with
  | nil => rfl
  | cons a l =>
    have ha : a ≠ null := hl.ne_null a (List.mem_cons_self ..)
    have htrips := length_trips hl.ring.links (fun z hz => (hl.ring.closed z hz a rfl).1)
      (List.nodup_cons.mp hl.ring.nodup).1 hl.live (n := 0) (by decide)
    rw [List.headD_cons, length, if_neg ha, iter_mono hfuel htrips, Nat.zero_add]
    rfl

end functions

/-! ### A program with many lists -/

/-- The heap and the list variables of a program. -/
structure Store (ι : Type) where
  heap : Heap
  var : ι → ℕ

section program
variable {ι : Type} {s : Store ι} {ch : ι → List ℕ} {l l' xs' : List ℕ} {h' : Heap} {list' : ℕ}

/-- Every list variable points to the first node of its own ring `ch`. -/
structure Represents (s : Store ι) (ch : ι → List ℕ) : Prop where
  holds : ∀ v, s.heap.Holds (ch v)
  head : ∀ v, s.var v = (ch v).headD null
  disjoint : ∀ v w, v ≠ w → ∀ n ∈ ch v, n ∉ ch w

/-- The sequences in the store. -/
def contents (s : Store ι) (ch : ι → List ℕ) (v : ι) : List ℕ := (ch v).map s.heap.data

namespace Represents

theorem start (h : Heap) : Represents (⟨h, fun _ => null⟩ : Store ι) fun _ => [] :=
  ⟨fun _ => Heap.holds_nil, fun _ => rfl, fun _ _ _ _ hn => by cases hn⟩

/-- The rings are determined by the store. -/
theorem unique {ch' : ι → List ℕ} (hR : Represents s ch) (hR' : Represents s ch') : ch = ch' := by
  funext v
  have hhead : (ch v).headD null = (ch' v).headD null := (hR.head v).symm.trans (hR'.head v)
  have hh := hR.holds v
  have hh' := hR'.holds v
  cases hc : ch v with
  | nil =>
    cases hc' : ch' v with
    | nil => rfl
    | cons b m =>
      rw [hc, hc'] at hhead
      rw [hc'] at hh'
      exact absurd hhead.symm (hh'.ne_null b (List.mem_cons_self ..))
  | cons a l =>
    rw [hc] at hhead hh
    cases hc' : ch' v with
    | nil =>
      rw [hc'] at hhead
      exact absurd hhead (hh.ne_null a (List.mem_cons_self ..))
    | cons b m =>
      rw [hc'] at hhead hh'
      obtain rfl : a = b := hhead
      rw [hh.ring.unique hh'.ring]

/-- A node of another list is neither old nor new in `Gives`. -/
theorem apart (hR : Represents s ch) {u : ι} (hl : ∀ n ∈ ch u, n ∉ l)
    (hg : Gives s.heap l h' list' l' xs') {n : ℕ} (hn : n ∈ ch u) : n ∉ l' := by
  intro hn'
  rcases hg.nodes n hn' with hold | hnew
  · exact hl n hn hold
  · exact Bool.false_ne_true (hnew.symm.trans ((hR.holds u).live n hn))

theorem same (hR : Represents s ch) {u : ι} (hl : ∀ n ∈ ch u, n ∉ l)
    (hg : Gives s.heap l h' list' l' xs') {n : ℕ} (hn : n ∈ ch u) : s.heap.Same h' n :=
  hg.frame n (hl n hn) (hR.apart hl hg hn)

section change
variable [DecidableEq ι] {v w : ι}
open Function (update)

/-- One list changes; `l` is what it is made of. -/
theorem change (hR : Represents s ch) (hl : ∀ u, u ≠ v → ∀ n ∈ ch u, n ∉ l)
    (hg : Gives s.heap l h' list' l' xs') :
    Represents ⟨h', update s.var v list'⟩ (update ch v l') ∧
      contents ⟨h', update s.var v list'⟩ (update ch v l') = update (contents s ch) v xs' := by
  have hsame : ∀ u, u ≠ v → ∀ n ∈ ch u, s.heap.Same h' n := fun u hu n hn =>
    hR.same (hl u hu) hg hn
  refine ⟨⟨fun u => ?_, fun u => ?_, fun u t hut n hn => ?_⟩, ?_⟩
  · rcases eq_or_ne u v with rfl | hu
    · rw [Function.update_self]
      exact hg.holds
    · rw [Function.update_of_ne hu]
      exact (hR.holds u).congr (hsame u hu)
  · rcases eq_or_ne u v with rfl | hu
    · rw [Function.update_self]
      exact (Function.update_self ..).trans hg.head
    · rw [Function.update_of_ne hu]
      exact (Function.update_of_ne hu ..).trans (hR.head u)
  · rcases eq_or_ne u v with rfl | hu
    · rw [Function.update_self] at hn
      rw [Function.update_of_ne hut.symm]
      exact fun hn' => hR.apart (hl t hut.symm) hg hn' hn
    · rw [Function.update_of_ne hu] at hn
      rcases eq_or_ne t v with rfl | ht
      · rw [Function.update_self]
        exact hR.apart (hl u hu) hg hn
      · rw [Function.update_of_ne ht]
        exact hR.disjoint u t hut n hn
  · funext u
    rcases eq_or_ne u v with rfl | hu
    · rw [contents, Function.update_self, Function.update_self]
      exact hg.values
    · rw [contents, Function.update_of_ne hu, Function.update_of_ne hu]
      exact List.map_congr_left fun n hn => (hsame u hu n hn).data

/-- A variable is forgotten. -/
theorem drop (hR : Represents s ch) (w : ι) :
    Represents ⟨s.heap, update s.var w null⟩ (update ch w []) ∧
      contents ⟨s.heap, update s.var w null⟩ (update ch w []) = update (contents s ch) w [] :=
  hR.change (l := []) (fun _ _ _ _ hn => by cases hn)
    ⟨Heap.holds_nil, rfl, rfl, List.forall_mem_nil _, fun n _ _ => .refl s.heap n⟩

end change

end Represents

/-! ### The calls on sequences -/

/-- The calls. `append v w` is the last use of the list in `w`. -/
inductive Op (ι : Type)
  | insertLast (v : ι) (data : ℕ)
  | insertBefore (v : ι) (data : ℕ)
  | insertAfter (v : ι) (data : ℕ)
  | append (v w : ι)
  | removeFirst (v : ι)

section calls
variable [DecidableEq ι]
open Function (update)

namespace Op

/-- The call on the store, and what it returns. `p` is the address of a new node. -/
def exec (p : ℕ) (s : Store ι) : Op ι → Option (Store ι × Option ℕ)
  | insertLast v data => do
    let (h, list) ← Sh.insertLast p data (s.var v) s.heap
    return (⟨h, update s.var v list⟩, none)
  | insertBefore v data => do
    let (h, list) ← Sh.insertBefore p data (s.var v) s.heap
    return (⟨h, update s.var v list⟩, none)
  | insertAfter v data => do
    let (h, list) ← Sh.insertAfter p data (s.var v) s.heap
    return (⟨h, update s.var v list⟩, none)
  | append v w => do
    let (h, list) ← Sh.append (s.var v) (s.var w) s.heap
    return (⟨h, update (update s.var w null) v list⟩, none)
  | removeFirst v => do
    let (h, list, data) ← Sh.removeFirst (s.var v) s.heap
    return (⟨h, update s.var v list⟩, some data)

/-- `malloc` returns a new node, and a list is not appended to itself. -/
def Proper (p : ℕ) (h : Heap) : Op ι → Prop
  | insertLast _ _ | insertBefore _ _ | insertAfter _ _ => h.Fresh p
  | append v w => v ≠ w
  | removeFirst _ => True

/-- The variables that the call is about. -/
def Touches (u : ι) : Op ι → Prop
  | insertLast v _ | insertBefore v _ | insertAfter v _ | removeFirst v => u = v
  | append v w => u = v ∨ u = w

/-- The call on sequences. -/
def spec (xs : ι → List ℕ) : Op ι → ι → List ℕ
  | insertLast v data | insertBefore v data => update xs v (xs v ++ [data])
  | insertAfter v data => update xs v (insertSecond data (xs v))
  | append v w => update (update xs w []) v (xs v ++ xs w)
  | removeFirst v => update xs v (xs v).tail

def result (xs : ι → List ℕ) : Op ι → Option ℕ
  | removeFirst v => some ((xs v).headD null)
  | _ => none

end Op

/-- The stores that the calls reach from empty lists, whatever `malloc` returns. -/
inductive Reach : Store ι → Prop
  | start (h : Heap) : Reach ⟨h, fun _ => null⟩
  | call {s s' : Store ι} (op : Op ι) (p : ℕ) {r : Option ℕ} : Reach s → op.Proper p s.heap →
      op.exec p s = some (s', r) → Reach s'

/-- A call gives the sequences of `spec` and leaves every list alone that it is not about. -/
structure Refines (s s' : Store ι) (ch ch' : ι → List ℕ) (op : Op ι) : Prop where
  represents : Represents s' ch'
  contents : contents s' ch' = op.spec (contents s ch)
  frame : ∀ u, ¬op.Touches u → s'.var u = s.var u ∧ ch' u = ch u ∧
    ∀ n ∈ ch u, s.heap.Same s'.heap n

/-- A call about one list. -/
theorem Represents.refines (hR : Represents s ch) {v : ι} {op : Op ι}
    (hg : Gives s.heap (ch v) h' list' l' xs') (htouch : ∀ u, op.Touches u ↔ u = v)
    (hspec : op.spec (contents s ch) = update (contents s ch) v xs') :
    Refines s ⟨h', update s.var v list'⟩ ch (update ch v l') op := by
  have hl : ∀ u, u ≠ v → ∀ n ∈ ch u, n ∉ ch v := fun u hu => hR.disjoint u v hu
  obtain ⟨hrep, hcont⟩ := hR.change hl hg
  refine ⟨hrep, hcont.trans hspec.symm, fun u hu => ?_⟩
  have hne : u ≠ v := fun h => hu ((htouch u).mpr h)
  exact ⟨Function.update_of_ne hne .., Function.update_of_ne hne .., fun n hn =>
    hR.same (hl u hne) hg hn⟩

/-- One call. -/
theorem Represents.exec (hR : Represents s ch) {op : Op ι} {p : ℕ} (hop : op.Proper p s.heap) :
    ∃ s' ch', op.exec p s = some (s', op.result (contents s ch)) ∧
      Refines s s' ch ch' op := by
  cases op with
  | insertLast v data =>
    obtain ⟨h', list', hcall, hg⟩ := insertLast_spec (hR.holds v) hop data
    refine ⟨_, _, ?_, hR.refines hg (fun u => Iff.rfl) rfl⟩
    rw [Op.exec, hR.head v, hcall]
    rfl
  | insertBefore v data =>
    obtain ⟨h', list', hcall, hg⟩ := insertBefore_spec (hR.holds v) hop data
    refine ⟨_, _, ?_, hR.refines hg (fun u => Iff.rfl) rfl⟩
    rw [Op.exec, hR.head v, hcall]
    rfl
  | insertAfter v data =>
    obtain ⟨h', list', hcall, hg⟩ := insertAfter_spec (hR.holds v) hop data
    refine ⟨_, _, ?_, hR.refines hg (fun u => Iff.rfl) rfl⟩
    rw [Op.exec, hR.head v, hcall]
    rfl
  | removeFirst v =>
    obtain ⟨h', list', hcall, hg⟩ := removeFirst_spec (hR.holds v)
    refine ⟨_, _, ?_, hR.refines hg (fun u => Iff.rfl) rfl⟩
    rw [Op.exec, hR.head v, hcall]
    rfl
  | append v w =>
    have hvw : v ≠ w := hop
    obtain ⟨h', list', hcall, hg⟩ := append_spec (hR.holds v) (hR.holds w)
      fun x hx y hy h => hR.disjoint v w hvw x hx (h ▸ hy)
    obtain ⟨hdrop, hcont⟩ := hR.drop w
    -- the list in `w` is given up before it becomes part of the other
    have hl : ∀ u, u ≠ v → ∀ n ∈ update ch w [] u, n ∉ ch v ++ ch w := by
      intro u hu n hn
      rcases eq_or_ne u w with rfl | huw
      · rw [Function.update_self] at hn
        cases hn
      · rw [Function.update_of_ne huw] at hn
        rw [List.mem_append, not_or]
        exact ⟨hR.disjoint u v hu n hn, hR.disjoint u w huw n hn⟩
    obtain ⟨hrep, hcont'⟩ := hdrop.change hl hg
    refine ⟨⟨h', update (update s.var w null) v list'⟩, _, ?_, hrep, ?_, fun u hu => ?_⟩
    · rw [Op.exec, hR.head v, hR.head w, hcall]
      rfl
    · rw [hcont', hcont]
      rfl
    · obtain ⟨huv, huw⟩ := not_or.mp hu
      have hch : update ch w [] u = ch u := Function.update_of_ne huw ..
      refine ⟨?_, (Function.update_of_ne huv ..).trans hch, fun n hn => ?_⟩
      · exact (Function.update_of_ne huv ..).trans (Function.update_of_ne huw ..)
      · exact hdrop.same (hl u huv) hg (hch.symm ▸ hn)

/-- Every reachable store represents sequences. -/
theorem Reach.represents {s : Store ι} (hr : Reach s) : ∃ ch, Represents s ch := by
  induction hr with
  | start h => exact ⟨_, Represents.start h⟩
  | call op p _ hop hexec ih =>
    obtain ⟨ch, hR⟩ := ih
    obtain ⟨s', ch', hexec', hs'⟩ := hR.exec hop
    obtain ⟨rfl, -⟩ := Prod.mk.inj (Option.some.inj (hexec.symm.trans hexec'))
    exact ⟨ch', hs'.represents⟩

/-- CORRECT (lists): in every reachable store the list variables point to disjoint rings whose two
    directions are inverse to each other, `length` ends and returns the number of nodes modulo 2^32,
    and every call gives what it gives on sequences and changes no node of another list. -/
theorem lists_refine {s : Store ι} (hr : Reach s) : ∃ ch, Represents s ch ∧
    (∀ v, ∀ n ∈ ch v, s.heap.pred (s.heap.succ n) = n ∧ s.heap.succ (s.heap.pred n) = n) ∧
    (∀ v fuel, (ch v).length ≤ fuel →
      length fuel (s.var v) s.heap = some ((contents s ch v).length % 2 ^ 32)) ∧
    ∀ (op : Op ι) (p : ℕ), op.Proper p s.heap →
      ∃ s' ch', op.exec p s = some (s', op.result (contents s ch)) ∧ Refines s s' ch ch' op := by
  obtain ⟨ch, hR⟩ := hr.represents
  refine ⟨ch, hR, fun v n hn => ?_, fun v fuel hfuel => ?_, fun op p hop => hR.exec hop⟩
  · exact ⟨(hR.holds v).ring.prev_next hn, (hR.holds v).ring.next_prev hn⟩
  · rw [hR.head v, length_spec (hR.holds v) hfuel, contents, List.length_map]

end calls

/-! ### Two lists of several nodes, and a long list -/

def emptyHeap : Heap := ⟨fun _ => false, fun _ => null, fun _ => null, fun _ => null⟩

section run
variable [DecidableEq ι] {s s' : Store ι}

instance (h : Heap) (p : ℕ) : Decidable (h.Fresh p) := inferInstanceAs (Decidable (_ ∧ _ ∧ _))

instance (p : ℕ) (h : Heap) : ∀ op : Op ι, Decidable (op.Proper p h)
  | .insertLast _ _ | .insertBefore _ _ | .insertAfter _ _ =>
    inferInstanceAs (Decidable (h.Fresh p))
  | .append v w => inferInstanceAs (Decidable (v ≠ w))
  | .removeFirst _ => inferInstanceAs (Decidable True)

/-- Some calls, each with the address of its new node. -/
def run : List (Op ι × ℕ) → Store ι → Option (Store ι)
  | [], s => some s
  | (op, p) :: ops, s =>
    if op.Proper p s.heap then (op.exec p s).bind fun r => run ops r.1 else none

theorem Reach.run {ops : List (Op ι × ℕ)} (hr : Reach s) (h : Sh.run ops s = some s') :
    Reach s' := by
  induction ops generalizing s with
  | nil => exact Option.some.inj h ▸ hr
  | cons c ops ih =>
    rw [Sh.run] at h
    split at h
    case isFalse => cases h
    case isTrue hop =>
      obtain ⟨r, hexec, hrest⟩ := Option.bind_eq_some_iff.mp h
      exact ih (hr.call c.1 c.2 hop hexec) hrest

end run

/-- `[1, 3, 2]` and `[4, 5]` in one list, without its first node, and a list at the address that is
    free again. -/
def twoCalls : List (Op Bool × ℕ) :=
  [(.insertLast false 1, 32), (.insertLast false 2, 64), (.insertAfter false 3, 96),
    (.insertLast true 4, 128), (.insertBefore true 5, 160), (.append false true, 0),
    (.removeFirst false, 0), (.insertLast true 6, 32), (.insertAfter true 7, 192)]

/-- The lists `[3, 2, 4, 5]` and `[6, 7]`. -/
def twoStore : Store Bool :=
  (run twoCalls ⟨emptyHeap, fun _ => null⟩).get (by decide +kernel)

/-- One call more removes 3 from the first list. -/
theorem lists_refine_two : ∃ ch s' ch', Represents twoStore ch ∧
    Op.exec 0 twoStore (.removeFirst false) = some (s', some 3) ∧
      Refines twoStore s' ch ch' (.removeFirst false) := by
  have hrun : run twoCalls ⟨emptyHeap, fun _ => null⟩ = some twoStore := (Option.some_get _).symm
  have hr : Reach twoStore := Reach.run (.start emptyHeap) hrun
  obtain ⟨ch, hR, -, -, hexec⟩ := lists_refine hr
  obtain ⟨s', ch', hcall, hrefines⟩ := hexec (.removeFirst false) 0 trivial
  have hthree : (Op.exec 0 twoStore (.removeFirst false)).map Prod.snd = some (some 3) := by
    decide +kernel
  rw [hcall] at hthree
  have hresult : Op.result (contents twoStore ch) (.removeFirst false) = some 3 :=
    Option.some.inj hthree
  exact ⟨ch, s', ch', hR, hresult ▸ hcall, hrefines⟩

/-- Nodes at 32, 64, …, 32 k. -/
theorem exists_long (k : ℕ) (hk : 32 * k < 2 ^ 64) : ∃ s : Store Unit, Reach s ∧ ∃ ch,
    Represents s ch ∧ (ch ()).length = k ∧ ∀ n, s.heap.live n = true → n ≤ 32 * k := by
  induction k with
  | zero => exact ⟨_, .start emptyHeap, _, Represents.start emptyHeap, rfl, fun n hn => by cases hn⟩
  | succ k ih =>
    obtain ⟨s, hr, ch, hR, hlen, hlive⟩ := ih (by omega)
    have hfree : s.heap.live (32 * (k + 1)) = false := by
      by_contra h
      have := hlive _ (Bool.of_not_eq_false h)
      omega
    have hp : s.heap.Fresh (32 * (k + 1)) := ⟨by simp, hk, hfree⟩
    obtain ⟨h', list', hcall, hg⟩ := insertLast_spec (hR.holds ()) hp 0
    have hexec : Op.exec (32 * (k + 1)) s (.insertLast () 0) =
        some (⟨h', Function.update s.var () list'⟩, none) := by
      rw [Op.exec, hR.head (), hcall]
      rfl
    obtain ⟨hR', -⟩ := hR.change (v := ()) (fun u hu => absurd rfl hu) hg
    refine ⟨_, hr.call (.insertLast () 0) _ hp hexec, _, hR', ?_, fun n hn => ?_⟩
    · rw [Function.update_self, List.length_append, hlen, List.length_singleton]
    · by_cases hnl : n ∈ ch ()
      · have := hlive n ((hR.holds ()).live n hnl)
        omega
      · by_cases hnp : n = 32 * (k + 1)
        · omega
        · have hout : n ∉ ch () ++ [32 * (k + 1)] := by
            rw [List.mem_append, List.mem_singleton]
            exact not_or.mpr ⟨hnl, hnp⟩
          have := hlive n ((hg.frame n hnl hout).live.symm.trans hn)
          omega

/-- After 2^32 calls of `insert_last` the list is as long, and `length` returns 0. -/
theorem length_wraps : ∃ s : Store Unit, Reach s ∧ ∃ ch, Represents s ch ∧
    (∀ ch', Represents s ch' → ch = ch') ∧ (contents s ch ()).length = 2 ^ 32 ∧
    ∀ fuel, 2 ^ 32 ≤ fuel → length fuel (s.var ()) s.heap = some 0 := by
  obtain ⟨s, hr, ch, hR, hlen, -⟩ := exists_long (2 ^ 32) (by decide)
  refine ⟨s, hr, ch, hR, fun ch' => hR.unique, ?_, fun fuel hfuel => ?_⟩
  · rw [contents, List.length_map, hlen]
  · rw [hR.head (), length_spec (hR.holds ()) (by rwa [hlen]), hlen, Nat.mod_self]

end program

end OsLabs.Sh
