import Casting.Message.Stream

/-!
# Items that carry a stream

A stream of contents as the items and the message that an encoding makes of it: whatever a
reference leads to is marked, and so is the first value if there are metatables.
-/

namespace Casting

def streamSize (cs : List Content) : ℕ := (cs.map Content.size).sum

@[simp]
theorem streamSize_nil : streamSize [] = 0 := rfl

@[simp]
theorem streamSize_append (cs cs' : List Content) :
    streamSize (cs ++ cs') = streamSize cs + streamSize cs' := by
  simp [streamSize]

@[simp]
theorem streamSize_cons (c : Content) (cs : List Content) :
    streamSize (c :: cs) = c.size + streamSize cs := by
  simp [streamSize]

theorem length_le_streamSize (cs : List Content) : 4 * cs.length ≤ streamSize cs := by
  induction cs with
  | nil => exact le_rfl
  | cons c cs ih =>
    have hsize : 4 ≤ c.size := Nat.le_add_right _ _
    rw [streamSize_cons, List.length_cons]
    omega

/-- How often a stream refers back. -/
def repeats (cs : List Content) : ℕ := cs.countP Content.isReference

theorem repeats_append (cs cs' : List Content) : repeats (cs ++ cs') = repeats cs + repeats cs' :=
  List.countP_append

theorem repeats_cons (c : Content) (cs : List Content) :
    repeats (c :: cs) = repeats cs + if c.isReference then 1 else 0 := List.countP_cons

/-- How many of the values behind it belong to a value. -/
def Content.arity : Content → ℤ
  | .table slots _ => 2 * slots.toInt
  | .function upvals _ => upvals.toInt
  | .userdata upvals _ => upvals.toInt
  | _ => 0

theorem arity_table {slots array : Word} (h : 0 ≤ (Content.table slots array).arity) :
    (Content.table slots array).arity = 2 * slots.toNat := by
  have hslots : 0 ≤ 2 * slots.toInt := h
  have hsign := BitVec.toInt_eq_toNat_cond slots
  rw [Content.arity]
  split at hsign <;> omega

/-! ## Items -/

/-- The items of a stream: no metatables, and marked where a reference leads. -/
def carried (cs : List Content) : List Item :=
  cs.mapIdx fun j c => ⟨c, decide (Content.reference (BitVec.ofNat 32 j) ∈ cs), false⟩

/-- References lead back. -/
def Backward (cs : List Content) : Prop :=
  ∀ ref, Content.reference ref ∈ cs → ref.toNat < cs.length

section Carried

variable {cs : List Content} {c : Content} {j : ℕ}

theorem getElem?_carried (cs : List Content) (j : ℕ) :
    (carried cs)[j]? = cs[j]?.map fun c =>
      ⟨c, decide (Content.reference (BitVec.ofNat 32 j) ∈ cs), false⟩ := List.getElem?_mapIdx

@[simp]
theorem length_carried (cs : List Content) : (carried cs).length = cs.length :=
  List.length_mapIdx

theorem toNat_ofNat_of_lt (h : j < 2 ^ 31) : (BitVec.ofNat 32 j).toNat = j := by
  rw [BitVec.toNat_ofNat, Nat.mod_eq_of_lt (by omega)]

end Carried

/-! ## Items with a metatable mark -/

/-- The items of a stream whose first value was marked as a metatable `metas` times. -/
def marked (cs : List Content) (metas : ℕ) : List Item :=
  cs.mapIdx fun j c =>
    ⟨c, decide (Content.reference (BitVec.ofNat 32 j) ∈ cs), decide (j = 0 ∧ metas ≠ 0)⟩

section Marked

variable {cs : List Content} {c : Content} {j metas : ℕ}

theorem getElem?_marked (cs : List Content) (metas j : ℕ) :
    (marked cs metas)[j]? = cs[j]?.map fun c =>
      ⟨c, decide (Content.reference (BitVec.ofNat 32 j) ∈ cs), decide (j = 0 ∧ metas ≠ 0)⟩ :=
  List.getElem?_mapIdx

theorem marked_zero (cs : List Content) : marked cs 0 = carried cs := by
  apply List.ext_getElem?
  intro j
  rw [getElem?_marked, getElem?_carried]
  simp

@[simp]
theorem length_marked (cs : List Content) (metas : ℕ) : (marked cs metas).length = cs.length :=
  List.length_mapIdx

theorem map_content_marked (cs : List Content) (metas : ℕ) :
    (marked cs metas).map Item.content = cs := by
  apply List.ext_getElem?
  intro j
  rw [List.getElem?_map, getElem?_marked, Option.map_map]
  exact Option.map_id'

theorem marked_append (hc : c.isReference = false) (hback : Backward cs)
    (hsmall : cs.length < 2 ^ 31) (hfirst : metas ≠ 0 → cs ≠ []) :
    marked (cs ++ [c]) metas = marked cs metas ++ [itemOf c] := by
  have hmem : ∀ ref, Content.reference ref ∈ cs ++ [c] ↔ Content.reference ref ∈ cs := by
    intro ref
    rw [List.mem_append, List.mem_singleton]
    constructor
    · rintro (hmem | rfl)
      · exact hmem
      · cases hc
    · exact .inl
  have hlast : Content.reference (BitVec.ofNat 32 cs.length) ∉ cs := by
    intro hlast
    have hlt := hback _ hlast
    rw [toNat_ofNat_of_lt hsmall] at hlt
    exact lt_irrefl _ hlt
  have hflag : ¬ (cs = [] ∧ metas ≠ 0) := fun h => hfirst h.2 h.1
  apply List.ext_getElem?
  intro j
  rw [getElem?_marked, List.getElem?_append, List.getElem?_append, getElem?_marked,
    length_marked]
  by_cases hj : j < cs.length
  · simp only [hj, if_true, hmem]
  · by_cases heq : j = cs.length
    · subst heq
      simpa [hmem, hlast, itemOf] using hflag
    · have hout : j - cs.length ≠ 0 := by omega
      simp [hj, hout]

theorem marked_append_reference (hj : j < cs.length) (hback : Backward cs)
    (hsmall : cs.length < 2 ^ 31) (metas : ℕ) :
    marked (cs ++ [.reference (BitVec.ofNat 32 j)]) metas =
      (marked cs metas).modify j (fun it => { it with referenced := true }) ++
        [itemOf (.reference (BitVec.ofNat 32 j))] := by
  have hmem : ∀ i ≤ cs.length,
      (Content.reference (BitVec.ofNat 32 i) ∈ cs ++ [.reference (BitVec.ofNat 32 j)] ↔
        Content.reference (BitVec.ofNat 32 i) ∈ cs ∨ j = i) := by
    intro i hi
    rw [List.mem_append, List.mem_singleton, Content.reference.injEq]
    have hinj : BitVec.ofNat 32 i = BitVec.ofNat 32 j ↔ j = i := by
      constructor
      · intro heq
        rw [← toNat_ofNat_of_lt (show j < 2 ^ 31 by omega), ← heq, toNat_ofNat_of_lt (by omega)]
      · rintro rfl
        rfl
    rw [hinj]
  have hlast : Content.reference (BitVec.ofNat 32 cs.length) ∉ cs := by
    intro hlast
    have hlt := hback _ hlast
    rw [toNat_ofNat_of_lt hsmall] at hlt
    exact lt_irrefl _ hlt
  apply List.ext_getElem?
  intro i
  rw [getElem?_marked, List.getElem?_append, List.getElem?_append, List.length_modify,
    length_marked, List.getElem?_modify, getElem?_marked]
  by_cases hi : i < cs.length
  · simp only [hi, if_true, hmem i hi.le]
    by_cases hji : j = i
    · simp only [hji, or_true, decide_true, if_true, Option.map_eq_map, Option.map_map]
      rfl
    · simp [hji]
  · by_cases heq : i = cs.length
    · subst heq
      have hsome : cs ≠ [] := List.ne_nil_of_length_pos (Nat.zero_lt_of_lt hj)
      simp [hmem, hlast, itemOf, Nat.ne_of_lt hj, hsome]
    · have hout : i - cs.length ≠ 0 := by omega
      simp [hi, hout]

theorem marked_set (hc : c.isReference = false)
    (hold : ∀ old, cs[j]? = some old → old.isReference = false) (metas : ℕ) :
    marked (cs.set j c) metas = (marked cs metas).modify j fun it => { it with content := c } := by
  have hmem : ∀ ref, Content.reference ref ∈ cs.set j c ↔ Content.reference ref ∈ cs := by
    intro ref
    constructor
    · intro hin
      rcases List.mem_or_eq_of_mem_set hin with hin | rfl
      · exact hin
      · cases hc
    · intro hin
      obtain ⟨i, hi⟩ := List.mem_iff_getElem?.mp hin
      have hne : j ≠ i := by
        rintro rfl
        cases hold _ hi
      apply List.mem_iff_getElem?.mpr
      exact ⟨i, by rw [List.getElem?_set_ne hne, hi]⟩
  apply List.ext_getElem?
  intro i
  rw [getElem?_marked, List.getElem?_modify, getElem?_marked]
  by_cases hji : j = i
  · subst hji
    by_cases hlt : j < cs.length
    · simp [hlt, hmem]
    · simp [hlt]
  · simp [hji, hmem]

theorem marked_succ (cs : List Content) (metas : ℕ) :
    marked cs (metas + 1) = (marked cs metas).modify 0 fun it => { it with isMeta := true } := by
  apply List.ext_getElem?
  intro i
  rw [getElem?_marked, List.getElem?_modify, getElem?_marked]
  cases i with
  | zero => cases cs[0]? <;> simp
  | succ i => simp

theorem length_layout_marked (cs : List Content) (metas : ℕ) :
    (layout (marked cs metas)).length = streamSize cs := by
  have hmap : (marked cs metas).map (fun it => it.content.size) =
      ((marked cs metas).map Item.content).map Content.size := by
    rw [List.map_map]
    rfl
  rw [length_layout, hmap, map_content_marked]
  rfl

theorem references_marked (cs : List Content) (metas : ℕ) :
    references (marked cs metas) = repeats cs := by
  have hcount : references (marked cs metas) =
      ((marked cs metas).map Item.content).countP Content.isReference := by
    rw [List.countP_map]
    rfl
  rw [hcount, map_content_marked]
  rfl

theorem map_content_carried (cs : List Content) : (carried cs).map Item.content = cs := by
  rw [← marked_zero, map_content_marked]

theorem length_layout_carried (cs : List Content) :
    (layout (carried cs)).length = streamSize cs := by
  rw [← marked_zero, length_layout_marked]

theorem references_carried (cs : List Content) : references (carried cs) = repeats cs := by
  rw [← marked_zero, references_marked]

end Marked

/-! ## Messages -/

/-- The message that `msg_new` makes of a stream for `n` values. -/
def messageOf (cs : List Content) (n : ℕ) : Message where
  refCount := 1
  size := BitVec.ofNat 32 (sizeofMessage + (streamSize cs - 4 * repeats cs))
  count := BitVec.ofNat 32 n
  refs := BitVec.ofNat 32 (2 * repeats cs)
  data := layout (carried cs)

end Casting
