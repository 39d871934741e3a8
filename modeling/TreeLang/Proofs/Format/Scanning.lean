import TreeLang.Proofs.Format.Grammar

namespace TreeLang.Format

open Text (charOf)

namespace Parts

def hasFlag (p : Parts) (c : Char) : Bool := c ∈ p.flags

def spec (p : Parts) : Spec :=
  ⟨p.hasFlag '-', p.hasFlag '0', p.hasFlag '+', p.hasFlag ' ', number? p.width,
    p.precision.map fun ds => (number? ds).getD 0⟩

def begun (p : Parts) : Begun :=
  if p.lengths ≠ [] then ⟨p.bytes, p.spec, .length⟩
  else
    match p.precision with
    | some ds => ⟨p.bytes, { p.spec with precision := none }, .precision ds⟩
    | none =>
      if p.width ≠ [] then ⟨p.bytes, { p.spec with width := none }, .width p.width⟩
      else ⟨p.bytes, p.spec, .flags⟩

section

variable {p : Parts} {ds : List Char}

/-- The stage of the scanner is the last part of the directive that is not empty. -/
theorem begun_lengths (hl : p.lengths ≠ []) : p.begun = ⟨p.bytes, p.spec, .length⟩ := by
  simp [begun, hl]

theorem begun_precision (hl : p.lengths = []) (hp : p.precision = some ds) :
    p.begun = ⟨p.bytes, { p.spec with precision := none }, .precision ds⟩ := by
  simp [begun, hl, hp]

theorem begun_width (hl : p.lengths = []) (hp : p.precision = none) (hw : p.width ≠ []) :
    p.begun = ⟨p.bytes, { p.spec with width := none }, .width p.width⟩ := by
  simp [begun, hl, hp, hw]

theorem begun_flags (hl : p.lengths = []) (hp : p.precision = none) (hw : p.width = []) :
    p.begun = ⟨p.bytes, p.spec, .flags⟩ := by
  simp [begun, hl, hp, hw]

end

/-- What the scanner has kept of the format is the directive as far as it goes. -/
theorem raw_begun (p : Parts) : p.begun.raw = p.bytes := by
  unfold begun
  split
  · rfl
  · split
    · rfl
    · split <;> rfl

/-- Once a directive is at its end, the scanner knows all that its parts say. -/
theorem settled_begun (p : Parts) : p.begun.settled = p.spec := by
  by_cases hl : p.lengths = []
  · cases hp : p.precision with
    | some ds => simp [begun_precision hl hp, Begun.settled, spec, hp]
    | none =>
      by_cases hw : p.width = []
      · rw [begun_flags hl hp hw, Begun.settled]
      · rw [begun_width hl hp hw, Begun.settled]
        rfl
  · rw [begun_lengths hl, Begun.settled]

@[simp] theorem number?_nil : number? [] = none := rfl

theorem isLength_eq (c : Char) : isLength c = decide (c ∈ lengthChars) := by
  simp [isLength, lengthChars, Bool.or_assoc]

/-- A flag is one of four characters, and setting it twice does not matter. -/
theorem flag?_spec (p : Parts) (c : Char) : p.spec.flag? c =
    if c ∈ flagChars then some { p with flags := p.flags ++ [c] }.spec else none := by
  unfold Spec.flag?
  split
  · simp [flagChars, spec, hasFlag]
  · simp [flagChars, spec, hasFlag]
  · simp [flagChars, spec, hasFlag]
  · simp [flagChars, spec, hasFlag]
  · rename_i hminus hzero hplus hspace
    have hc : c ∉ flagChars := by
      simp only [flagChars, List.mem_cons, List.not_mem_nil, or_false]
      rintro (rfl | rfl | rfl | rfl)
      exacts [hminus rfl, hzero rfl, hplus rfl, hspace rfl]
    rw [if_neg hc]

theorem part?_length (b : Begun) {c : Char} (hc : c ∈ lengthChars) :
    b.part? c = some (b.settled, .length) := by
  obtain ⟨hdigit, hpoint, hflag⟩ := of_mem_lengthChars c hc
  have hlength : isLength c = true := by simp [isLength_eq, hc]
  obtain ⟨raw, spec, stage⟩ := b
  cases stage with
  | flags =>
    have hnone : spec.flag? c = none := by
      unfold Spec.flag?
      split
      case h_5 => rfl
      all_goals exact absurd (by decide) hflag
    simp [Begun.part?, Begun.settled, hnone, hdigit, hpoint, hlength]
  | width ds => simp [Begun.part?, hdigit, hpoint, hlength]
  | precision ds => simp [Begun.part?, hdigit, hlength]
  | length => simp [Begun.part?, Begun.settled, hlength]

/-- The scanner goes on with a character exactly where a directive does. -/
theorem part?_begun (p : Parts) (c : Char) :
    p.begun.part? c = (p.extend c).map fun q => (q.begun.spec, q.begun.stage) := by
  by_cases hc : c ∈ lengthChars
  · have hq : ({ p with lengths := p.lengths ++ [c] } : Parts).begun = ⟨_, p.spec, .length⟩ :=
      begun_lengths (by simp)
    rw [extend, if_pos hc, Option.map_some, hq, part?_length _ hc, settled_begun]
  · have hlength : isLength c = false := by simp [isLength_eq, hc]
    obtain ⟨flags, width, precision, lengths⟩ := p
    by_cases hl : lengths = []
    · subst hl
      cases precision with
      | some ds =>
        rw [begun_precision rfl rfl]
        by_cases hd : c.isDigit = true
        · have hq : (⟨flags, width, some (ds ++ [c]), []⟩ : Parts).begun = _ := begun_precision rfl rfl
          simp [Begun.part?, extend, hc, hd, hq, spec, hasFlag]
        · simp [Begun.part?, extend, hc, hd, hlength]
      | none =>
        have hpoint : (⟨flags, width, some [], []⟩ : Parts).begun = _ := begun_precision rfl rfl
        by_cases hw : width = []
        · subst hw
          rw [begun_flags rfl rfl rfl, Begun.part?, flag?_spec]
          by_cases hf : c ∈ flagChars
          · have hq : (⟨flags ++ [c], [], none, []⟩ : Parts).begun = _ := begun_flags rfl rfl rfl
            simp [extend, hc, hf, hq]
          · have hq : (⟨flags, [c], none, []⟩ : Parts).begun = _ := begun_width rfl rfl (by simp)
            by_cases hd : c.isDigit = true
            · simp [extend, hc, hf, hd, hq, spec, hasFlag]
            · by_cases hdot : c = '.'
              · subst hdot
                simp [extend, hc, hf, hpoint, spec, hasFlag]
              · simp [extend, hc, hf, hd, hdot, hlength]
        · rw [begun_width rfl rfl hw]
          by_cases hd : c.isDigit = true
          · have hq : (⟨flags, width ++ [c], none, []⟩ : Parts).begun = _ :=
              begun_width rfl rfl (by simp)
            simp [Begun.part?, extend, hc, hw, hd, hq, spec, hasFlag]
          · by_cases hdot : c = '.'
            · subst hdot
              simp [Begun.part?, Begun.settled, extend, hc, hw, hpoint, spec, hasFlag]
            · simp [Begun.part?, extend, hc, hw, hd, hdot, hlength]
    · rw [begun_lengths hl]
      simp [Begun.part?, extend, hlength, hc, hl]

end Parts

def Token.piece : Token → Piece
  | .byte b _ => .literal [b]
  | .directive d last _ =>
    if last = 0x25 then .literal [last]
    else
      match Conversion.ofChar? (charOf last) with
      | some conversion => .argument d.spec conversion
      | none => .literal (d.bytes ++ [last])

namespace Reading

def begun (r : Reading) : Option Begun := r.unfinished.map fun d => d.toParts.begun

theorem charOf_eq_percent {b : UInt8} : charOf b = '%' ↔ b = 0x25 :=
  Text.charOf_inj (b := 0x25)

/-- A byte that goes on with the directive makes no piece. -/
theorem step_of_extend {p q : Parts} {b : UInt8} (h : p.extend (charOf b) = some q) :
    step (some p.begun) b = ([], some q.begun) := by
  have hpart := p.part?_begun (charOf b)
  rw [h, Option.map_some] at hpart
  have hq : q.begun = ⟨p.begun.raw ++ [b], q.begun.spec, q.begun.stage⟩ := by
    rw [Parts.raw_begun, ← Parts.bytes_extend h, ← Parts.raw_begun]
  simp only [step, hpart, ← hq]

/-- A directive at its end is a piece: a conversion, a percent sign, or itself. -/
theorem finish_begun {d : Directive} {b : UInt8} (h : ¬ d.GoesOn b) :
    d.begun.finish b = (Token.directive d b h).piece := by
  simp only [Begun.finish, Token.piece, Parts.settled_begun, Parts.raw_begun]
  by_cases hb : b = 0x25
  · exact (if_pos (charOf_eq_percent.mpr hb)).trans (if_pos hb).symm
  · exact (if_neg (mt charOf_eq_percent.mp hb)).trans (if_neg hb).symm

/-- The byte that ends a directive makes its piece. -/
theorem step_of_ends {d : Directive} {b : UInt8} (h : ¬ d.GoesOn b) :
    step (some d.begun) b = ([(Token.directive d b h).piece], none) := by
  have hnone : d.extend (charOf b) = none :=
    Option.eq_none_iff_forall_ne_some.mpr fun p hp => h (Directive.goesOn_iff.mpr ⟨p, hp⟩)
  have hpart := d.part?_begun (charOf b)
  rw [hnone, Option.map_none] at hpart
  simp only [step, hpart, finish_begun h]

/-- One byte for the scanner is one byte more for the reading. -/
theorem step_push (r : Reading) (b : UInt8) : ∃ ps, step r.begun b = (ps, (r.push b).begun) ∧
    (r.push b).tokens.map Token.piece = r.tokens.map Token.piece ++ ps := by
  obtain ⟨h, hr, hpush⟩ | ⟨rfl, hr, hpush⟩ | ⟨d, hr, ⟨e, he, hpush⟩ | ⟨h, hpush⟩⟩ := push_cases r b
  · refine ⟨[.literal [b]], ?_, by simp [hpush, Token.piece]⟩
    simp [begun, hr, hpush, step, charOf_eq_percent, h]
  · refine ⟨[], ?_, by simp [hpush]⟩
    simp only [begun, hr, hpush, Option.map_none, Option.map_some]
    rfl
  · refine ⟨[], ?_, by simp [hpush]⟩
    simp only [begun, hr, hpush, Option.map_some, step_of_extend he]
  · refine ⟨[(Token.directive d b h).piece], ?_, by simp [hpush]⟩
    simp only [begun, hr, hpush, Option.map_some, Option.map_none, step_of_ends h]

/-- The pieces of a format are those of its tokens, and what follows is read from there on. -/
theorem pieces_reading (r : Reading) (behind : List UInt8) :
    pieces (r.bytes ++ behind) = r.tokens.map Token.piece ++ piecesFrom r.begun behind := by
  induction r using induct generalizing behind with
  | hempty => rfl
  | hpush r b ih =>
    obtain ⟨ps, hstep, htokens⟩ := step_push r b
    rw [bytes_push, List.append_assoc, List.singleton_append, ih, piecesFrom, hstep, htokens,
      List.append_assoc]

end Reading

end TreeLang.Format
