import Lox.Proofs.Expr.Shape

set_option autoImplicit false

/-!
# Reading is the inverse of writing a row

Reading tokens with a stack of frames gives the one proper and shaped tree whose row the tokens
stand for. One direction follows the tree, and says that its tokens are read back whatever frames
stand around them. The other follows the reading, and rests on what holds of the frames at each
step: they are sound, and the innermost one admits the operand that has been completed.

## Main definitions

* `Lox.Frame.Admits` — an operand of some level is left alone by the innermost frame.
* `Lox.Frame.Sound` — what holds of the frames during a reading.

## Main results

* `Lox.Expr.readFrom_of_spells` — the tokens of a shaped tree are read back inside frames.
* `Lox.Expr.readFrom_sound` — what has been read is proper, shaped and nothing but the tokens.
* `Lox.Expr.read_eq_ok_iff` — reading all tokens gives a tree if and only if it stands for them.
-/

namespace Lox

open Lox.Expr (tightest)

namespace Frame

/-! ## What frames admit -/

/-- Whether an operand of the given level is completed before the innermost frame is. -/
def Admits (level : Nat) : List Frame → Prop
  | unary _ :: _ => tightest ≤ level
  | binary _ op _ :: _ => op.precedence < level
  | _ => True

/-- What is admitted at one level is admitted at a higher one. -/
theorem Admits.mono {frames : List Frame} {l m : Nat} (h : Admits l frames) (hm : l ≤ m) :
    Admits m frames := by
  match frames with
  | [] | group :: _ => trivial
  | unary _ :: _ | binary _ _ _ :: _ => simp only [Admits] at h ⊢; omega

/-- An operand that binds most tightly is admitted everywhere. -/
theorem admits_tightest (frames : List Frame) : Admits tightest frames := by
  match frames with
  | [] | group :: _ => trivial
  | unary _ :: _ => exact Nat.le_refl _
  | binary _ op _ :: _ => exact op.precedence_lt_tightest

/-- An operator completes no frames that admit its precedence. -/
theorem complete_of_admits {frames : List Frame} {p : Nat} (h : Admits p frames)
    (hp : p < tightest) (e : Expr) : complete p frames e = (frames, e) := by
  match frames with
  | [] | group :: _ => rfl
  | unary _ :: _ => simp only [Admits] at h; omega
  | binary _ op _ :: _ =>
    simp only [Admits] at h
    rw [complete, if_neg (by omega)]

end Frame

namespace Expr

/-! ## Single steps -/

/-- A value is held. -/
theorem readFrom_value {frames : List Frame} {t : Token} {v : Value} (h : t.value? = some v)
    (ts : List Token) :
    readFrom .operand frames (t :: ts) = readFrom (.operator (literal v)) frames ts := by
  simp [readFrom, h]

/-- A unary operator waits for its operand. -/
theorem readFrom_unary {frames : List Frame} {t : Token} (h : t.IsUnary) (ts : List Token) :
    readFrom .operand frames (t :: ts) = readFrom .operand (.unary t :: frames) ts := by
  have hunary : t.kind.unaryOp?.isSome = true := h
  simp [readFrom, h.value?_eq_none, hunary]

/-- An opening parenthesis waits for what is in the group. -/
theorem readFrom_leftParen {frames : List Frame} {t : Token} (h : t.kind = .symbol .leftParen)
    (ts : List Token) :
    readFrom .operand frames (t :: ts) = readFrom .operand (.group :: frames) ts := by
  simp [readFrom, Token.value?_of_leftParen h, h, Kind.unaryOp?]

/-- A binary operator completes its left operand and waits for the right one. -/
theorem readFrom_binary {frames outer : List Frame} {held left : Expr} {t : Token} {op : BinaryOp}
    (h : t.kind.binaryOp? = some op)
    (hcomplete : Frame.complete op.precedence frames held = (outer, left)) (ts : List Token) :
    readFrom (.operator held) frames (t :: ts) =
      readFrom .operand (.binary left op t :: outer) ts := by
  simp [readFrom, h, hcomplete]

/-- A closing parenthesis completes what is in the group. -/
theorem readFrom_rightParen {frames outer : List Frame} {held inner : Expr} {t : Token}
    (h : t.kind = .symbol .rightParen)
    (hcomplete : Frame.complete 0 frames held = (.group :: outer, inner)) (ts : List Token) :
    readFrom (.operator held) frames (t :: ts) =
      readFrom (.operator (grouping inner)) outer ts := by
  simp [readFrom, hcomplete, h, Kind.binaryOp?]

/-! ## From the tree to its tokens -/

/-- **Tokens of a shaped tree are read back** inside any frames that admit the tree. The reading
need not have put the tree together yet, but whatever comes next does so before it looks at the
frames around.

**Proof sketch.** Induction on the tree. A value is held as it is. The operand of a unary operator
is read inside one more frame, which every precedence completes. Of a binary operation the left
operand is read first; its operator then completes exactly this operand, since the frames around
admit the operation, and the right operand is read inside the frame that is left. The end of a group
completes what the group holds, and nothing beyond. -/
theorem readFrom_of_spells {e : Expr} (proper : e.Proper) (shaped : e.Shaped) {words : List Token}
    (spells : e.Spells words) {frames : List Frame} (admits : Frame.Admits e.level frames)
    (rest : List Token) :
    ∃ held inner,
      readFrom .operand frames (words ++ rest) = readFrom (.operator held) inner rest ∧
      ∀ p ≤ e.level, Frame.complete p inner held = Frame.complete p frames e := by
  induction e generalizing words frames rest with
  | literal v =>
    obtain ⟨t, rfl, hv⟩ := spells_literal.mp spells
    exact ⟨literal v, frames, readFrom_value (Token.value?_eq_some_iff.mpr hv) rest, fun _ _ => rfl⟩
  | grouping inner ih =>
    obtain ⟨start, body, close, rfl, hs, hb, hc⟩ := spells_grouping.mp spells
    have hadmits : Frame.Admits inner.level (.group :: frames) := trivial
    obtain ⟨held, frames', hread, hcomplete⟩ := ih proper shaped hb hadmits (close :: rest)
    refine ⟨grouping inner, frames, ?_, fun _ _ => rfl⟩
    have hzero : Frame.complete 0 frames' held = (.group :: frames, inner) :=
      hcomplete 0 (Nat.zero_le _)
    calc readFrom .operand frames (start :: (body ++ [close]) ++ rest)
        = readFrom .operand (.group :: frames) (body ++ close :: rest) := by
          simp [readFrom_leftParen hs]
      _ = readFrom (.operator held) frames' (close :: rest) := hread
      _ = readFrom (.operator (grouping inner)) frames rest := by
          rw [readFrom_rightParen hc hzero]
  | unary t operand ih =>
    obtain ⟨body, rfl, hb⟩ := spells_unary.mp spells
    obtain ⟨ht, hproper⟩ := proper
    obtain ⟨hshaped, hlevel⟩ := shaped
    have hadmits : Frame.Admits operand.level (.unary t :: frames) := hlevel
    obtain ⟨held, frames', hread, hcomplete⟩ := ih hproper hshaped hb hadmits rest
    refine ⟨held, frames', ?_, fun p hp => hcomplete p (Nat.le_trans hp hlevel)⟩
    rw [List.cons_append, readFrom_unary ht, hread]
  | binary left t right ihl ihr =>
    obtain ⟨us, vs, rfl, hu, hv⟩ := spells_binary.mp spells
    obtain ⟨hproperl, ht, hproperr⟩ := proper
    obtain ⟨hshapedl, hshapedr, hl, hr⟩ := shaped
    obtain ⟨op, hop⟩ := Option.isSome_iff_exists.mp ht
    have hprec : t.precedence = op.precedence := Token.precedence_of_binaryOp? hop
    obtain ⟨heldl, framesl, hreadl, hcompletel⟩ :=
      ihl hproperl hshapedl hu (admits.mono hl) (t :: (vs ++ rest))
    have hadmits : Frame.Admits right.level (.binary left op t :: frames) := by rwa [hprec] at hr
    obtain ⟨held, frames', hread, hcomplete⟩ := ihr hproperr hshapedr hv hadmits rest
    have hleft : Frame.complete op.precedence framesl heldl = (frames, left) := by
      rw [hcompletel _ (by rwa [hprec] at hl)]
      exact Frame.complete_of_admits (hprec ▸ admits) op.precedence_lt_tightest left
    refine ⟨held, frames', ?_, fun p hp => ?_⟩
    · calc readFrom .operand frames (us ++ t :: vs ++ rest)
          = readFrom (.operator heldl) framesl (t :: (vs ++ rest)) := by
            rw [← hreadl]; simp
        _ = readFrom .operand (.binary left op t :: frames) (vs ++ rest) := by
            rw [readFrom_binary hop hleft]
        _ = readFrom (.operator held) frames' rest := hread
    · have hp : p ≤ op.precedence := hprec ▸ hp
      rw [hcomplete p (by omega)]
      simp [Frame.complete, hp]

end Expr

/-! ## From the tokens to the tree -/

namespace Frame

/-- What holds of the frames during a reading: operators stand in their position, and each left
operand is a tree that binds tightly enough and has taken in all that binds at least as tightly
before it. -/
def Sound : List Frame → Prop
  | [] => True
  | unary t :: frames => t.IsUnary ∧ Sound frames
  | binary left op t :: frames =>
    t.kind.binaryOp? = some op ∧ left.Proper ∧ left.Shaped ∧ op.precedence ≤ left.level ∧
      Admits op.precedence frames ∧ Sound frames
  | group :: frames => Sound frames

/-- The row of what stands before the awaited operand. -/
@[simp]
def yield : List Frame → List Item
  | [] => []
  | unary t :: frames => yield frames ++ [.operator t]
  | binary left _ t :: frames => yield frames ++ left.yield ++ [.operator t]
  | group :: frames => yield frames ++ [.groupStart]

/-- An operand that can stand inside frames: a proper and shaped tree that the innermost frame
admits. -/
structure Fits (frames : List Frame) (e : Expr) : Prop where
  /-- All operators stand in their position. -/
  proper : e.Proper
  /-- All operands inside bind tightly enough. -/
  shaped : e.Shaped
  /-- The operand itself binds tightly enough. -/
  admits : Admits e.level frames

/-- **Completing frames keeps them sound** and loses nothing of the row. What is left admits the
operator for which frames were completed. -/
theorem complete_sound {p : Nat} {frames : List Frame} {e : Expr} (sound : Sound frames)
    (fits : Fits frames e) (hp : p ≤ e.level) :
    Sound (complete p frames e).1 ∧ Fits (complete p frames e).1 (complete p frames e).2 ∧
      p ≤ (complete p frames e).2.level ∧ Admits p (complete p frames e).1 ∧
      yield (complete p frames e).1 ++ (complete p frames e).2.yield =
        yield frames ++ e.yield := by
  induction frames generalizing e with
  | nil => exact ⟨trivial, fits, hp, trivial, rfl⟩
  | cons frame frames ih =>
    cases frame with
    | unary t =>
      have hfits : Fits frames (.unary t e) :=
        ⟨⟨sound.1, fits.proper⟩, ⟨fits.shaped, fits.admits⟩, admits_tightest frames⟩
      have := ih sound.2 hfits (Nat.le_trans hp e.level_le_tightest)
      simpa [complete, Expr.yield] using this
    | binary left op t =>
      obtain ⟨hop, hproper, hshaped, hleft, hadmits, hsound⟩ := sound
      have hprec : t.precedence = op.precedence := Token.precedence_of_binaryOp? hop
      have hright : op.precedence < e.level := fits.admits
      by_cases hle : p ≤ op.precedence
      · have hlevel : (Expr.binary left t e).level = op.precedence := hprec
        have hfits : Fits frames (.binary left t e) := by
          refine ⟨⟨hproper, ?_, fits.proper⟩, ⟨hshaped, fits.shaped, ?_, ?_⟩, ?_⟩
          · simp [Token.IsBinary, hop]
          · rwa [hprec]
          · rwa [hprec]
          · rwa [hlevel]
        have := ih hsound hfits (by rwa [hlevel])
        simpa [complete, hle, Expr.yield] using this
      · rw [complete, if_neg hle]
        exact ⟨⟨hop, hproper, hshaped, hleft, hadmits, hsound⟩, fits, hp, Nat.lt_of_not_le hle, rfl⟩
    | group => exact ⟨sound, fits, hp, trivial, rfl⟩

end Frame

namespace Awaited

/-- What is held is a value or a group, and so can stand inside all frames. -/
def Sound : Awaited → Prop
  | operand => True
  | operator held => held.Proper ∧ held.Shaped ∧ held.level = tightest

/-- The row of what is held. -/
@[simp]
def yield : Awaited → List Item
  | operand => []
  | operator held => held.yield

/-- What is held fits inside all frames. -/
theorem Sound.fits {held : Expr} (h : (operator held).Sound) (frames : List Frame) :
    Frame.Fits frames held :=
  ⟨h.1, h.2.1, h.2.2 ▸ Frame.admits_tightest frames⟩

/-- What is held binds at least as tightly as any operator. -/
theorem Sound.precedence_le {held : Expr} (h : (operator held).Sound) (op : BinaryOp) :
    op.precedence ≤ held.level :=
  h.2.2 ▸ Nat.le_of_lt op.precedence_lt_tightest

end Awaited

namespace Expr

/-- What a reading can be trusted with: a proper and shaped tree whose row is `done`, followed by
items that the tokens before `rest` stand for. -/
structure Continues (e : Expr) (done : List Item) (tokens rest : List Token) : Prop where
  /-- All operators stand in their position. -/
  proper : e.Proper
  /-- All operands bind tightly enough. -/
  shaped : e.Shaped
  /-- Nothing but the tokens read has been added to the row. -/
  row : ∃ items words, tokens = words ++ rest ∧ e.yield = done ++ items ∧
    List.Forall₂ Item.Spells items words

/-- One more token adds one more item. -/
theorem Continues.cons {e : Expr} {done : List Item} (item : Item) {t : Token}
    {ts rest : List Token} (h : e.Continues (done ++ [item]) ts rest) (spells : item.Spells t) :
    e.Continues done (t :: ts) rest := by
  obtain ⟨proper, shaped, items, words, rfl, hyield, hspells⟩ := h
  exact ⟨proper, shaped, item :: items, t :: words, rfl, by simpa using hyield, .cons spells hspells⟩

/-- An operand that completes all frames is a tree of what has been read. -/
theorem continues_of_complete {frames : List Frame} {held e : Expr}
    (sound : Frame.Sound frames) (awaits : (Awaited.operator held).Sound)
    (hcomplete : Frame.complete 0 frames held = ([], e)) (tokens : List Token) :
    e.Continues (Frame.yield frames ++ held.yield) tokens tokens := by
  have hsound := Frame.complete_sound sound (awaits.fits _) (Nat.zero_le _)
  rw [hcomplete] at hsound
  obtain ⟨-, hfits, -, -, hyield⟩ := hsound
  exact ⟨hfits.proper, hfits.shaped, [], [], rfl, by simpa using hyield, .nil⟩

/-- **What has been read is a tree of the tokens.**

**Proof sketch.** Induction along the reading. Each token adds its item to the row, be it as a frame
or as a part of the operand that is held, and `Frame.complete_sound` says that completing frames
changes neither the row nor what holds of the frames. -/
theorem readFrom_sound {awaited : Awaited} {frames : List Frame} {tokens : List Token} {e : Expr}
    {rest : List Token} (h : readFrom awaited frames tokens = .ok (e, rest))
    (sound : Frame.Sound frames) (awaits : awaited.Sound) :
    e.Continues (Frame.yield frames ++ awaited.yield) tokens rest := by
  fun_induction readFrom awaited frames tokens with
  | case1 | case5 | case7 | case11 => cases h
  | case2 frames t ts v hv ih =>
    have := ih h sound ⟨trivial, trivial, rfl⟩
    exact .cons (.value v) (by simpa [yield] using this)
      (Token.value?_eq_some_iff.mp hv)
  | case3 frames t ts hv ht ih =>
    have := ih h ⟨ht, sound⟩ trivial
    exact .cons (.operator t) (by simpa using this) rfl
  | case4 frames t ts hv ht hparen ih =>
    have := ih h sound trivial
    exact .cons .groupStart (by simpa using this) hparen
  | case6 held frames e' hcomplete =>
    cases h
    exact continues_of_complete sound awaits hcomplete _
  | case8 held frames t ts op hop outer left hcomplete ih =>
    have hsound := Frame.complete_sound sound (awaits.fits _) (awaits.precedence_le op)
    rw [hcomplete] at hsound
    obtain ⟨houter, hfits, hlevel, hadmits, hyield⟩ := hsound
    have := ih h ⟨hop, hfits.proper, hfits.shaped, hlevel, hadmits, houter⟩ trivial
    refine .cons (.operator t) ?_ rfl
    simpa [hyield] using this
  | case9 held frames t ts hbinary e' hcomplete =>
    cases h
    exact continues_of_complete sound awaits hcomplete _
  | case10 held frames t ts hbinary frame outer inner hcomplete hparen ih =>
    have hsound := Frame.complete_sound sound (awaits.fits _) (Nat.zero_le _)
    obtain rfl : frame = .group := by
      rcases Frame.complete_zero frames held with hnil | ⟨frames', hcons⟩
      · simp [hcomplete] at hnil
      · simp only [hcomplete, List.cons.injEq] at hcons
        exact hcons.1
    rw [hcomplete] at hsound
    obtain ⟨houter, hfits, -, -, hyield⟩ := hsound
    have := ih h houter ⟨hfits.proper, hfits.shaped, rfl⟩
    refine .cons .groupEnd ?_ hparen
    simpa [yield, ← hyield] using this

/-- The reading of all tokens gives a tree if and only if it is proper and shaped and the tokens are
its row. -/
theorem read_eq_ok_iff {words : List Token} {e : Expr} :
    read words = .ok (e, []) ↔ e.Proper ∧ e.Shaped ∧ e.Spells words := by
  constructor
  · intro h
    obtain ⟨proper, shaped, items, words', rfl, hyield, hspells⟩ :=
      readFrom_sound h (by trivial) (by trivial)
    refine ⟨proper, shaped, ?_⟩
    rw [Spells, hyield]
    simpa using hspells
  · rintro ⟨proper, shaped, spells⟩
    have hadmits : Frame.Admits e.level [] := trivial
    obtain ⟨held, frames, hread, hcomplete⟩ := readFrom_of_spells proper shaped spells hadmits []
    rw [List.append_nil] at hread
    have hzero : Frame.complete 0 frames held = ([], e) := hcomplete 0 (Nat.zero_le _)
    rw [read, hread, readFrom, hzero]

end Expr

end Lox
