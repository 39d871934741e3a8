import TreeLang.Proofs.Format.Scanning

namespace TreeLang.Format

open Text (charOf)

variable {resolve : UInt64 → List UInt8}

/-- The second part of a format goes on with the cells that the first has left. -/
theorem renderPieces_append (ps qs : List Piece) (cells : List UInt64) :
    renderPieces resolve (ps ++ qs) cells = renderPieces resolve ps cells ++
      renderPieces resolve qs (cells.drop (stringArguments ps).length) := by
  induction ps generalizing cells with
  | nil => rfl
  | cons p ps ih =>
    cases p with
    | literal bytes =>
      simp only [List.cons_append, renderPieces, stringArguments, ih, List.append_assoc]
    | argument s c =>
      cases cells with
      | nil => simp only [List.cons_append, renderPieces, ih, List.drop_nil]
      | cons cell cells =>
        simp only [List.cons_append, renderPieces, ih, stringArguments, List.length_cons,
          List.drop_succ_cons, List.append_assoc]

def takers : List Char := "diuxXfFeEgGsc".toList

def Token.takes : Token → Bool
  | .byte .. => false
  | .directive _ last _ => charOf last ∈ takers

/-- What a token stands for that takes no cell: two percent signs for one, all else for itself. -/
def Token.verbatim : Token → List UInt8
  | .byte b _ => [b]
  | .directive d last _ => if last = 0x25 then [last] else d.bytes ++ [last]

theorem mem_takers {c : Char} (h : (Conversion.ofChar? c).isSome = true) : c ∈ takers := by
  unfold Conversion.ofChar? at h
  split at h
  case h_14 => cases h
  all_goals decide

/-- Which characters end a directive that takes a cell. -/
theorem isSome_ofChar? (c : Char) : (Conversion.ofChar? c).isSome = decide (c ∈ takers) := by
  have hall : ∀ c ∈ takers, (Conversion.ofChar? c).isSome = true :=
    List.all_iff_forall_prop.mp (by decide)
  exact Bool.eq_iff_iff.mpr
    ⟨fun h => decide_eq_true (mem_takers h), fun h => hall c (of_decide_eq_true h)⟩

/-- A token that takes a cell is a conversion, any other one stands for itself. -/
theorem Token.piece_of_takes {t : Token} (h : t.takes = true) :
    ∃ s c, t.piece = .argument s c := by
  cases t with
  | byte b plain => cases h
  | directive d last ends =>
    have hsome : (Conversion.ofChar? (charOf last)).isSome = true := (isSome_ofChar? _).trans h
    obtain ⟨c, hc⟩ := Option.isSome_iff_exists.mp hsome
    refine ⟨d.spec, c, ?_⟩
    simp only [piece, hc]
    split
    · rename_i hpercent
      subst hpercent
      cases h
    · rfl

theorem Token.piece_of_not_takes {t : Token} (h : t.takes = false) :
    t.piece = .literal t.verbatim := by
  cases t with
  | byte b plain => rfl
  | directive d last ends =>
    have hnone : Conversion.ofChar? (charOf last) = none :=
      Option.isSome_eq_false_iff.mp ((isSome_ofChar? _).trans h) |> Option.isNone_iff_eq_none.mp
    simp only [piece, verbatim, hnone]
    split <;> rfl

theorem renderPieces_of_takes {t : Token} (h : t.takes = true) :
    renderPieces resolve [t.piece] [] = [] := by
  obtain ⟨s, c, hpiece⟩ := Token.piece_of_takes h
  rw [hpiece]
  rfl

theorem renderPieces_of_not_takes {t : Token} (h : t.takes = false) (cells : List UInt64) :
    renderPieces resolve [t.piece] cells = t.verbatim := by
  rw [Token.piece_of_not_takes h]
  exact List.append_nil _

namespace Reading

def takes (r : Reading) : Nat := r.tokens.countP Token.takes

/-- As many cells are taken as there are tokens that take one. -/
theorem length_stringArguments (ts : List Token) :
    (stringArguments (ts.map Token.piece)).length = ts.countP Token.takes := by
  induction ts with
  | nil => rfl
  | cons t ts ih =>
    cases ht : t.takes with
    | true =>
      obtain ⟨s, c, hpiece⟩ := Token.piece_of_takes ht
      simp [hpiece, stringArguments, ih, ht]
    | false => simp [Token.piece_of_not_takes ht, stringArguments, ih, ht]

/-- What is left unfinished at the end of a format is what its reading says. -/
theorem state_reading (r : Reading) : state none r.bytes = r.begun := by
  induction r using induct with
  | hempty => rfl
  | hpush r b ih =>
    obtain ⟨ps, hstep, -⟩ := step_push r b
    rw [bytes_push, state_append, ih, state, hstep, state]

/-- A format that ends in the middle of a directive goes on with it behind. -/
theorem render_append (r : Reading) (behind : List UInt8) (cells : List UInt64) :
    render resolve (r.bytes ++ behind) cells =
      renderPieces resolve (r.tokens.map Token.piece) cells ++
        renderPieces resolve (piecesFrom r.begun behind) (cells.drop r.takes) := by
  rw [render, pieces_reading, renderPieces_append, length_stringArguments, takes]

theorem render_bytes (r : Reading) (cells : List UInt64) : render resolve r.bytes cells =
    renderPieces resolve (r.tokens.map Token.piece) cells ++ r.unfinished.elim [] (·.bytes) := by
  have h : render resolve (r.bytes ++ []) cells = _ := r.render_append [] cells
  rw [List.append_nil] at h
  rw [h]
  cases hr : r.unfinished with
  | none => simp [begun, hr, piecesFrom, renderPieces]
  | some d => simp [begun, hr, piecesFrom, renderPieces, Parts.raw_begun]

end Reading

def Token.alone (t : Token) : Reading := ⟨[t], none⟩

theorem Token.bytes_alone (t : Token) : t.alone.bytes = t.bytes := by
  simp [alone, Reading.bytes]

/-- A whole token composes with anything behind it. -/
theorem Token.render_append (t : Token) (behind : List UInt8) (cells : List UInt64) :
    render resolve (t.bytes ++ behind) cells = renderPieces resolve [t.piece] cells ++
      render resolve behind (cells.drop t.alone.takes) := by
  rw [← bytes_alone, t.alone.render_append]
  rfl

/-- The character that ends a directive belongs to none of its parts. -/
theorem Parts.extend_taker (p : Parts) {c : Char} (hc : c ∈ takers) : p.extend c = none := by
  have hall : ∀ c ∈ takers,
      c ∉ lengthChars ∧ c ∉ flagChars ∧ c.isDigit = false ∧ c ≠ '.' :=
    List.all_iff_forall_prop.mp (by decide)
  obtain ⟨hlength, hflag, hdigit, hpoint⟩ := hall c hc
  refine Option.eq_none_iff_forall_ne_some.mpr fun q hq => ?_
  obtain ⟨h, -⟩ | ⟨-, ⟨-, -, h, -⟩ | ⟨-, ⟨h, -⟩ | ⟨h, -⟩ | ⟨-, h, -⟩⟩⟩ := extend_cases hq
  · exact hlength h
  · cases hdigit.symm.trans h
  · exact hpoint h
  · cases hdigit.symm.trans h
  · exact hflag h

theorem pieces_conversion (d : Directive) {last : UInt8} {c : Conversion}
    (hc : Conversion.ofChar? (charOf last) = some c) :
    pieces (d.bytes ++ [last]) = [.argument d.spec c] := by
  have htaker : charOf last ∈ takers := mem_takers (Option.isSome_of_eq_some hc)
  have hlast : last ≠ 0x25 := by
    rintro rfl
    cases hc
  let t : Token := .directive d last (Directive.not_goesOn (d.extend_taker htaker))
  have hpiece : t.piece = .argument d.spec c := by simp [t, Token.piece, hlast, hc]
  calc pieces (d.bytes ++ [last])
    _ = pieces (t.alone.bytes ++ []) := by rw [List.append_nil, Token.bytes_alone]; rfl
    _ = t.alone.tokens.map Token.piece ++ piecesFrom t.alone.begun [] := t.alone.pieces_reading []
    _ = [.argument d.spec c] := by rw [← hpiece]; rfl

/-- A format can be read in one way only. Where it does not end inside of a directive, what follows it
is rendered as if it stood alone, with the cells that are left: each token that takes a cell has taken
one, as long as there were any. The other tokens take none and stand for themselves, those that find no
cell for nothing. A directive that a format does not finish stands for itself at its end. -/
theorem render_compositional (resolve : UInt64 → List UInt8) :
    (∀ format : List UInt8, ∃! r : Reading, r.bytes = format) ∧
    (∀ r : Reading, r.unfinished = none ↔ state none r.bytes = none) ∧
    (∀ (r : Reading) (behind : List UInt8) (cells : List UInt64), r.unfinished = none →
      render resolve (r.bytes ++ behind) cells = render resolve r.bytes cells ++
        render resolve behind (cells.drop (min cells.length r.takes))) ∧
    (∀ (t : Token) (behind : List UInt8) (cells : List UInt64), t.takes = false →
      render resolve (t.bytes ++ behind) cells = t.verbatim ++ render resolve behind cells) ∧
    (∀ (t : Token) (behind : List UInt8), t.takes = true →
      render resolve (t.bytes ++ behind) [] = render resolve behind []) ∧
    ∀ (r : Reading) (d : Directive) (cells : List UInt64), r.unfinished = some d →
      d.bytes <:+ render resolve r.bytes cells := by
  refine ⟨Reading.existsUnique_reading, fun r => ?_, fun r behind cells hr => ?_,
    fun t behind cells ht => ?_, fun t behind ht => ?_, fun r d cells hr => ?_⟩
  · rw [r.state_reading, Reading.begun, Option.map_eq_none_iff]
  · have hdrop : cells.drop (min cells.length r.takes) = cells.drop r.takes := by
      rcases Nat.le_total cells.length r.takes with h | h
      · rw [Nat.min_eq_left h, List.drop_length, List.drop_eq_nil_of_le h]
      · rw [Nat.min_eq_right h]
    have hbegun : r.begun = none := by rw [Reading.begun, hr, Option.map_none]
    rw [hdrop, r.render_append, r.render_bytes, hr, hbegun, Option.elim_none, List.append_nil]
    rfl
  · have hnone : t.alone.takes = 0 := by simp [Token.alone, Reading.takes, ht]
    rw [t.render_append, renderPieces_of_not_takes ht, hnone, List.drop_zero]
  · rw [t.render_append, renderPieces_of_takes ht, List.nil_append, List.drop_nil]
  · rw [r.render_bytes, hr]
    exact List.suffix_append _ _

/-- The second cell is for what follows the percent sign, and no cell is left for the last conversion. -/
theorem render_compositional_width : ∃ r : Reading, r.bytes = Text.bytes "a%5d%%" ∧
    r.unfinished = none ∧ r.takes = 1 ∧
    render (fun _ => []) (r.bytes ++ Text.bytes "%d|%x") [7, 8] = Text.bytes "a    7%8|" := by
  let r := Reading.read (Text.bytes "a%5d%%")
  have hrender := (render_compositional (fun _ => [])).2.2.1 r (Text.bytes "%d|%x") [7, 8] rfl
  exact ⟨r, Reading.bytes_read _, rfl, rfl, hrender.trans (by decide)⟩

end TreeLang.Format
