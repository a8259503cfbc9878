import Lox.Coding
import Mathlib

set_option autoImplicit false

/-!
# Positions in texts in units

A coding is faithful if a character up to 127 is a unit by itself and looks like it, if the units of all
others look like characters from 128 on, and if it can be seen of a unit whether it is the first one of a
character. Then a class that makes no difference among the characters from 128 on is seen in units as it is
in characters, and a position is seen to lie between two characters if and only if it does.

## Main definitions

* `Lox.Coding.size` — how many units a text has.
* `Lox.Coding.Faithful` — codings of which units tell what the scan asks.
* `Lox.Coding.Uniform` — classes that hold of all characters from 128 on, or of none.

## Main results

* `Lox.Coding.faithful_utf8`, `Lox.Coding.faithful_characters` — bytes and characters are faithful.
* `Lox.Coding.Faithful.takeWhile_glyphs` — what a class takes of units is what it takes of characters.
* `Lox.Coding.Faithful.isBoundary_iff` — the positions between characters.
* `Lox.Coding.Faithful.slice_units` — what stands between two of them.
* `Lox.Coding.isSome_slice_utf8_iff` — the slices that can be taken out of a text in UTF-8.
-/

namespace Lox

namespace Coding

variable {α : Type} {coding : Coding α}

/-! ## Sizes -/

/-- How many units a text has. -/
def size (coding : Coding α) (cs : List Char) : Nat :=
  (coding.units cs).length

/-- What the units of a text look like. -/
def glyphs (coding : Coding α) (cs : List Char) : List Char :=
  (coding.units cs).map coding.glyph

/-- The units of a text are those of its first character and those of the others. -/
theorem units_cons (c : Char) (cs : List Char) :
    coding.units (c :: cs) = coding.encode c ++ coding.units cs :=
  List.flatMap_cons

/-- The units of two texts are those of the one and those of the other. -/
theorem units_append (cs ds : List Char) :
    coding.units (cs ++ ds) = coding.units cs ++ coding.units ds :=
  List.flatMap_append

/-- The empty text has no units. -/
@[simp]
theorem size_nil : coding.size [] = 0 :=
  rfl

/-- The units of a text are those of its first character and those of the others. -/
theorem size_cons (c : Char) (cs : List Char) :
    coding.size (c :: cs) = (coding.encode c).length + coding.size cs := by
  rw [size, units_cons, List.length_append, size]

/-- The units of two texts are those of the one and those of the other. -/
@[simp]
theorem size_append (cs ds : List Char) :
    coding.size (cs ++ ds) = coding.size cs + coding.size ds := by
  rw [size, units_append, List.length_append, size, size]

/-- A character has as many units as a text of it. -/
theorem size_singleton (c : Char) : coding.size [c] = (coding.encode c).length := by
  rw [size_cons, size_nil, Nat.add_zero]

/-- A text with a character has a unit. -/
theorem size_cons_pos (c : Char) (cs : List Char) : 0 < coding.size (c :: cs) := by
  have := List.length_pos_iff.mpr (coding.encode_ne_nil c)
  rw [size_cons]
  omega

/-- What the units of a text look like, character by character. -/
theorem glyphs_cons (c : Char) (cs : List Char) :
    coding.glyphs (c :: cs) = (coding.encode c).map coding.glyph ++ coding.glyphs cs := by
  rw [glyphs, units_cons, List.map_append, glyphs]

/-- There is something to see for each unit. -/
theorem length_glyphs (cs : List Char) : (coding.glyphs cs).length = coding.size cs :=
  List.length_map _

/-! ## Faithful codings -/

/-- **A coding is faithful** if its units tell apart the characters up to 127, and where characters
begin. -/
structure Faithful (coding : Coding α) : Prop where
  /-- A character up to 127 is a unit that looks like it. -/
  ascii : ∀ c : Char, c.toNat < 128 → (coding.encode c).map coding.glyph = [c]
  /-- No unit of another character looks like one up to 127. -/
  others : ∀ c : Char, 128 ≤ c.toNat → ∀ u ∈ coding.encode c, 128 ≤ (coding.glyph u).toNat
  /-- The first unit of a character, and no other unit of it, is seen to be one. -/
  first : ∀ c i, (coding.encode c)[i]?.any coding.isFirst = true ↔ i = 0
  /-- The units of a text stand for it. -/
  decode : ∀ cs, coding.decode (coding.units cs) = some (String.ofList cs)

/-- A class that holds of all characters from 128 on, or of none of them. -/
def Uniform (p : Char → Bool) : Prop :=
  ∀ c d : Char, 128 ≤ c.toNat → 128 ≤ d.toNat → p c = p d

/-- A class of characters up to 127 holds of no others. -/
theorem Uniform.of_forall_lt {p : Char → Bool} (h : ∀ c, p c = true → c.toNat < 128) : Uniform p := by
  have hother : ∀ c : Char, 128 ≤ c.toNat → p c = false := fun c hc =>
    Bool.eq_false_iff.mpr fun hp => Nat.not_lt.mpr hc (h c hp)
  exact fun c d hc hd => (hother c hc).trans (hother d hd).symm

/-- The class of all characters but one up to 127 holds of all others. -/
theorem uniform_bne {d : Char} (hd : d.toNat < 128) : Uniform (· != d) := by
  have hother : ∀ c : Char, 128 ≤ c.toNat → (c != d) = true := by
    intro c hc
    refine bne_iff_ne.mpr ?_
    rintro rfl
    omega
  exact fun c e hc he => (hother c hc).trans (hother e he).symm

/-- Texts of characters are faithful. -/
theorem faithful_characters : characters.Faithful where
  ascii _ _ := rfl
  others c h u hu := by
    rw [List.mem_singleton.mp hu]
    exact h
  first c i := by cases i <;> simp [characters]
  decode cs := by
    show some (String.ofList (cs.flatMap fun c => [c])) = _
    rw [List.flatMap_singleton']

/-- A character up to 127 is a byte in UTF-8. -/
theorem utf8Size_of_lt {c : Char} (h : c.toNat < 128) : c.utf8Size = 1 := by
  rw [Char.utf8Size_eq_one_iff, UInt32.le_iff_toNat_le]
  exact Nat.le_of_lt_succ h

/-- The bytes of a character from 128 on are numbers from 128 on. -/
theorem le_of_mem_utf8EncodeChar {c : Char} (h : 128 ≤ c.toNat) {b : UInt8}
    (hb : b ∈ String.utf8EncodeChar c) : 128 ≤ b.toNat := by
  have hc : ¬c.val.toNat ≤ 127 := Nat.not_le.mpr h
  unfold String.utf8EncodeChar at hb
  simp only [if_neg hc] at hb
  split at hb
  · simp only [List.mem_cons, List.not_mem_nil, or_false] at hb
    rcases hb with rfl | rfl <;> simp only [UInt8.toNat_ofNat'] <;> omega
  split at hb
  · simp only [List.mem_cons, List.not_mem_nil, or_false] at hb
    rcases hb with rfl | rfl | rfl <;> simp only [UInt8.toNat_ofNat'] <;> omega
  · simp only [List.mem_cons, List.not_mem_nil, or_false] at hb
    rcases hb with rfl | rfl | rfl | rfl <;> simp only [UInt8.toNat_ofNat'] <;> omega

/-- The bytes of a text in UTF-8. -/
theorem toByteArray_units (cs : List Char) :
    (utf8.units cs).toByteArray = (String.ofList cs).toByteArray :=
  String.toByteArray_ofList.symm

/-- A text has as many bytes in UTF-8 as it has units. -/
theorem size_utf8 (cs : List Char) : utf8.size cs = (String.ofList cs).utf8ByteSize := by
  rw [← String.size_toByteArray, ← toByteArray_units, List.size_toByteArray, size]

/-- **Texts in UTF-8 are faithful.** -/
theorem faithful_utf8 : utf8.Faithful where
  ascii c h := by
    show (String.utf8EncodeChar c).map Char.ofUInt8 = [c]
    rw [String.utf8EncodeChar_eq_singleton (utf8Size_of_lt h), List.map_singleton]
    refine congrArg (· :: []) (Char.ext (UInt32.toNat_inj.mp ?_))
    show c.val.toUInt8.toUInt32.toNat = c.val.toNat
    have hc : c.val.toNat < 128 := h
    simp only [UInt8.toNat_toUInt32, UInt32.toNat_toUInt8]
    omega
  others c h b hb := le_of_mem_utf8EncodeChar h hb
  first c i := by
    show (String.utf8EncodeChar c)[i]?.any (fun b => decide b.IsUTF8FirstByte) = true ↔ i = 0
    by_cases hi : i < (String.utf8EncodeChar c).length
    · rw [List.getElem?_eq_getElem hi]
      simp
    · have hpos := List.length_pos_iff.mpr (String.utf8EncodeChar_ne_nil (c := c))
      rw [List.getElem?_eq_none (Nat.le_of_not_lt hi)]
      simp only [Option.any_none, Bool.false_eq_true, false_iff]
      omega
  decode cs := by
    show String.fromUTF8? (utf8.units cs).toByteArray = _
    rw [toByteArray_units, String.fromUTF8?, dif_pos (String.ofList cs).isValidUTF8]
    rfl

namespace Faithful

variable (faithful : coding.Faithful)

include faithful

/-! ## What units look like -/

/-- A character up to 127 is one unit. -/
theorem size_of_ascii {c : Char} (hc : c.toNat < 128) : coding.size [c] = 1 := by
  rw [size_singleton, ← List.length_map coding.glyph, faithful.ascii c hc, List.length_singleton]

/-- A character up to 127 looks like itself. -/
theorem glyphs_of_ascii {c : Char} (hc : c.toNat < 128) (cs : List Char) :
    coding.glyphs (c :: cs) = c :: coding.glyphs cs := by
  rw [glyphs_cons, faithful.ascii c hc, List.singleton_append]

/-- Any other character looks like others from 128 on. -/
theorem exists_glyphs_of_other {c : Char} (hc : 128 ≤ c.toNat) :
    ∃ g gs, (coding.encode c).map coding.glyph = g :: gs ∧ ∀ d ∈ g :: gs, 128 ≤ d.toNat := by
  obtain ⟨u, us, hus⟩ := List.exists_cons_of_ne_nil (coding.encode_ne_nil c)
  refine ⟨coding.glyph u, us.map coding.glyph, by rw [hus, List.map_cons], ?_⟩
  rw [← List.map_cons, ← hus]
  intro d hd
  obtain ⟨v, hv, rfl⟩ := List.mem_map.mp hd
  exact faithful.others c hc v hv

/-- **What a class takes of units is what it takes of characters**, if it makes no difference among the
characters from 128 on.

**Proof sketch.** Induction on the text. A character up to 127 looks like itself. All units of another one
are in the class if it is, and its first unit is not if it is not. -/
theorem takeWhile_glyphs {p : Char → Bool} (uniform : Uniform p) (cs : List Char) :
    (coding.glyphs cs).takeWhile p = coding.glyphs (cs.takeWhile p) := by
  induction cs with
  | nil => rfl
  | cons c cs ih =>
    by_cases hc : c.toNat < 128
    · rw [faithful.glyphs_of_ascii hc, List.takeWhile_cons, List.takeWhile_cons, ih]
      split
      · rw [faithful.glyphs_of_ascii hc]
      · rfl
    · have hother : 128 ≤ c.toNat := Nat.le_of_not_lt hc
      obtain ⟨g, gs, hgs, hlarge⟩ := faithful.exists_glyphs_of_other hother
      rw [glyphs_cons, List.takeWhile_cons]
      split
      · next hp =>
        have hall : ∀ d ∈ (coding.encode c).map coding.glyph, p d := by
          rw [hgs]
          exact fun d hd => (uniform d c (hlarge d hd) hother).trans hp
        rw [List.takeWhile_append_of_pos hall, ih, glyphs_cons]
      · next hp =>
        have hg : ¬p g := by
          rw [uniform g c (hlarge g (.head _)) hother]
          exact hp
        rw [hgs, List.cons_append, List.takeWhile_cons_of_neg hg]
        rfl

/-- A character up to 127 is seen in front of a text if and only if it stands there. -/
theorem head?_glyphs_eq_some_iff {d : Char} (hd : d.toNat < 128) (cs : List Char) :
    (coding.glyphs cs).head? = some d ↔ cs.head? = some d := by
  cases cs with
  | nil => rfl
  | cons c cs =>
    by_cases hc : c.toNat < 128
    · rw [faithful.glyphs_of_ascii hc]
      rfl
    · obtain ⟨g, gs, hgs, hlarge⟩ := faithful.exists_glyphs_of_other (Nat.le_of_not_lt hc)
      have hg := hlarge g (.head _)
      rw [glyphs_cons, hgs]
      refine iff_of_false ?_ ?_
      · intro h
        obtain rfl : g = d := Option.some_inj.mp h
        omega
      · intro h
        obtain rfl : c = d := Option.some_inj.mp h
        omega

/-- A character of a class is seen in front of a text if and only if one stands there, if the class makes
no difference among the characters from 128 on. -/
theorem any_head?_glyphs {p : Char → Bool} (uniform : Uniform p) (cs : List Char) :
    (coding.glyphs cs).head?.any p = cs.head?.any p := by
  cases cs with
  | nil => rfl
  | cons c cs =>
    by_cases hc : c.toNat < 128
    · rw [faithful.glyphs_of_ascii hc]
      rfl
    · have hother : 128 ≤ c.toNat := Nat.le_of_not_lt hc
      obtain ⟨g, gs, hgs, hlarge⟩ := faithful.exists_glyphs_of_other hother
      rw [glyphs_cons, hgs]
      exact uniform g c (hlarge g (.head _)) hother

/-- As many line feeds are seen as there are. -/
theorem count_glyphs (cs : List Char) : (coding.glyphs cs).count '\n' = cs.count '\n' := by
  induction cs with
  | nil => rfl
  | cons c cs ih =>
    by_cases hc : c.toNat < 128
    · rw [faithful.glyphs_of_ascii hc, List.count_cons, List.count_cons, ih]
    · have hother : 128 ≤ c.toNat := Nat.le_of_not_lt hc
      have hne : c ≠ '\n' := by
        rintro rfl
        exact hc (by decide)
      have hunits : ((coding.encode c).map coding.glyph).count '\n' = 0 := by
        rw [List.count_eq_zero]
        intro hmem
        obtain ⟨u, hu, hglyph⟩ := List.mem_map.mp hmem
        have hlarge := faithful.others c hother u hu
        rw [hglyph] at hlarge
        exact absurd hlarge (by decide)
      rw [glyphs_cons, List.count_append, hunits, ih, List.count_cons_of_ne hne, Nat.zero_add]

/-! ## Positions between characters -/

/-- There is a boundary behind any beginning of a text. -/
theorem isBoundary_size (cs ds : List Char) :
    coding.isBoundary (coding.units (cs ++ ds)) (coding.size cs) = true := by
  unfold isBoundary
  rw [Bool.or_eq_true, Bool.or_eq_true]
  cases ds with
  | nil =>
    left
    right
    rw [List.append_nil]
    exact beq_self_eq_true _
  | cons d ds =>
    right
    have hpos := List.length_pos_iff.mpr (coding.encode_ne_nil d)
    rw [units_append, size, List.getElem?_append_right (Nat.le_refl _), Nat.sub_self, units_cons,
      List.getElem?_append_left hpos]
    exact (faithful.first d 0).mpr rfl

/-- A first unit is seen behind a beginning of a text only. -/
theorem exists_append_of_isFirst {cs : List Char} {i : Nat}
    (h : (coding.units cs)[i]?.any coding.isFirst = true) :
    ∃ before after, cs = before ++ after ∧ i = coding.size before := by
  induction cs generalizing i with
  | nil => cases h
  | cons c cs ih =>
    rw [units_cons] at h
    by_cases hi : i < (coding.encode c).length
    · rw [List.getElem?_append_left hi] at h
      exact ⟨[], c :: cs, rfl, (faithful.first c i).mp h⟩
    · rw [List.getElem?_append_right (Nat.le_of_not_lt hi)] at h
      obtain ⟨before, after, rfl, hsize⟩ := ih h
      refine ⟨c :: before, after, rfl, ?_⟩
      rw [size_cons]
      omega

/-- **The positions between characters** are those behind the beginnings of the text. -/
theorem isBoundary_iff {cs : List Char} {i : Nat} :
    coding.isBoundary (coding.units cs) i = true ↔
      ∃ before after, cs = before ++ after ∧ i = coding.size before := by
  constructor
  · intro h
    unfold isBoundary at h
    rw [Bool.or_eq_true, Bool.or_eq_true, beq_iff_eq, beq_iff_eq] at h
    obtain (rfl | rfl) | h := h
    · exact ⟨[], cs, rfl, rfl⟩
    · exact ⟨cs, [], (List.append_nil cs).symm, rfl⟩
    · exact faithful.exists_append_of_isFirst h
  · rintro ⟨before, after, rfl, rfl⟩
    exact faithful.isBoundary_size before after

/-- **What stands between two positions** of which the one lies behind a beginning of the text, and the
other behind a longer one. -/
theorem slice_units (before text after : List Char) :
    coding.slice (coding.units (before ++ (text ++ after))) (coding.size before)
      (coding.size before + coding.size text) = some (String.ofList text) := by
  have hfirst := faithful.isBoundary_size before (text ++ after)
  have hlast := faithful.isBoundary_size (before ++ text) after
  rw [size_append, List.append_assoc] at hlast
  rw [slice, if_pos ⟨Nat.le_add_right _ _, hfirst, hlast⟩, Nat.add_sub_cancel_left, units_append,
    units_append]
  show coding.decode (List.take (coding.units text).length
    (List.drop (coding.units before).length _)) = _
  rw [List.drop_left, List.take_left]
  exact faithful.decode text

/-- A slice can be taken out of a text if and only if both positions lie between characters and are in
order. -/
theorem isSome_slice_iff {cs : List Char} {first last : Nat} :
    (coding.slice (coding.units cs) first last).isSome = true ↔
      first ≤ last ∧ coding.isBoundary (coding.units cs) first = true ∧
        coding.isBoundary (coding.units cs) last = true := by
  constructor
  · intro h
    unfold slice at h
    split at h
    · next hends => exact hends
    · cases h
  · rintro ⟨hle, hfirst, hlast⟩
    obtain ⟨before, rest, rfl, rfl⟩ := faithful.isBoundary_iff.mp hfirst
    obtain ⟨longer, after, happend, rfl⟩ := faithful.isBoundary_iff.mp hlast
    -- of two beginnings of a text, the one with fewer units is a beginning of the other
    obtain ⟨text, rfl, rfl⟩ | ⟨text, rfl, rfl⟩ := List.append_eq_append_iff.mp happend
    · rw [size_append, faithful.slice_units]
      rfl
    · have htext : coding.size text = 0 := by
        rw [size_append] at hle
        omega
      obtain rfl : text = [] := by
        cases text with
        | nil => rfl
        | cons c cs => exact absurd htext (Nat.ne_of_gt (size_cons_pos c cs))
      have hslice := faithful.slice_units longer [] rest
      rw [size_nil, Nat.add_zero, List.nil_append] at hslice
      rw [List.append_nil, hslice]
      rfl

end Faithful

/-! ## Texts in UTF-8 -/

/-- A position of a text in UTF-8 is seen to lie between characters if and only if it does. -/
theorem isBoundary_utf8_iff {source : String} {i : Nat} :
    utf8.isBoundary (utf8.units source.toList) i = true ↔ String.Pos.Raw.IsValid source ⟨i⟩ := by
  rw [faithful_utf8.isBoundary_iff, String.Pos.Raw.isValid_iff_exists_append]
  constructor
  · rintro ⟨before, after, happend, rfl⟩
    refine ⟨String.ofList before, String.ofList after, ?_, ?_⟩
    · rw [← String.ofList_append, ← happend, String.ofList_toList]
    · exact String.Pos.Raw.ext (size_utf8 before)
  · rintro ⟨before, after, rfl, hi⟩
    refine ⟨before.toList, after.toList, String.toList_append, ?_⟩
    rw [size_utf8, String.ofList_toList]
    exact congrArg String.Pos.Raw.byteIdx hi

/-- **The slices that can be taken out of a text in UTF-8** are those with both ends between characters, and
in order. -/
theorem isSome_slice_utf8_iff {source : String} {first last : Nat} :
    (utf8.slice (utf8.units source.toList) first last).isSome = true ↔
      first ≤ last ∧ String.Pos.Raw.IsValid source ⟨first⟩ ∧
        String.Pos.Raw.IsValid source ⟨last⟩ := by
  rw [faithful_utf8.isSome_slice_iff, isBoundary_utf8_iff, isBoundary_utf8_iff]

end Coding

end Lox
