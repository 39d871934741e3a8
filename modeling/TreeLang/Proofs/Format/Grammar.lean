import Mathlib.Data.Bool.AllAny
import Mathlib.Data.List.Basic
import Mathlib.Data.List.Induction
import TreeLang.Format.Render
import TreeLang.Proofs.Text.Ascii

namespace TreeLang.Format

open Text (charOf IsAscii)

structure Parts where
  flags : List Char
  width : List Char
  precision : Option (List Char)
  lengths : List Char
  deriving DecidableEq

namespace Parts

def flagChars : List Char := ['-', '0', '+', ' ']

def lengthChars : List Char := ['l', 'h', 'z']

structure Regular (p : Parts) : Prop where
  flags : ∀ c ∈ p.flags, c ∈ flagChars
  width : ∀ c ∈ p.width, c.isDigit = true
  leading : p.width.head? ≠ some '0'
  precision : ∀ ds ∈ p.precision, ∀ c ∈ ds, c.isDigit = true
  lengths : ∀ c ∈ p.lengths, c ∈ lengthChars

instance (p : Parts) : Decidable p.Regular :=
  decidable_of_iff
    (p.flags.all (· ∈ flagChars) ∧ p.width.all Char.isDigit ∧ p.width.head? ≠ some '0' ∧
      p.precision.all (·.all Char.isDigit) ∧ p.lengths.all (· ∈ lengthChars)) <| by
    simp only [List.all_eq_true, Option.all_eq_true, decide_eq_true_eq]
    exact ⟨fun ⟨flags, width, leading, precision, lengths⟩ =>
      ⟨flags, width, leading, precision, lengths⟩, fun h =>
      ⟨h.flags, h.width, h.leading, h.precision, h.lengths⟩⟩

def point : Option (List Char) → List Char
  | none => []
  | some ds => '.' :: ds

def chars (p : Parts) : List Char :=
  '%' :: p.flags ++ p.width ++ point p.precision ++ p.lengths

def start : Parts := ⟨[], [], none, []⟩

def extend (p : Parts) (c : Char) : Option Parts :=
  if c ∈ lengthChars then some { p with lengths := p.lengths ++ [c] }
  else if p.lengths ≠ [] then none
  else
    match p.precision with
    | some ds => if c.isDigit then some { p with precision := some (ds ++ [c]) } else none
    | none =>
      if p.width = [] ∧ c ∈ flagChars then some { p with flags := p.flags ++ [c] }
      else if c.isDigit then some { p with width := p.width ++ [c] }
      else if c = '.' then some { p with precision := some [] }
      else none

/-- The parts behind a percent sign are regular as long as each character goes to the part it belongs
to. -/
theorem regular_start : start.Regular := by
  constructor <;> simp [start]

theorem extend_cases {p q : Parts} {c : Char} (h : p.extend c = some q) :
    (c ∈ lengthChars ∧ q = { p with lengths := p.lengths ++ [c] }) ∨
    p.lengths = [] ∧
      ((∃ ds, p.precision = some ds ∧ c.isDigit = true ∧ q = { p with precision := some (ds ++ [c]) }) ∨
      p.precision = none ∧
        ((c = '.' ∧ q = { p with precision := some [] }) ∨
        (c.isDigit = true ∧ (p.width = [] → c ∉ flagChars) ∧ q = { p with width := p.width ++ [c] }) ∨
        (p.width = [] ∧ c ∈ flagChars ∧ q = { p with flags := p.flags ++ [c] }))) := by
  unfold extend at h
  split at h
  · rename_i hc
    cases h
    exact .inl ⟨hc, rfl⟩
  · split at h
    · cases h
    · rename_i hl
      refine .inr ⟨not_not.mp hl, ?_⟩
      split at h
      · rename_i ds hp
        split at h
        · rename_i hd
          cases h
          exact .inl ⟨ds, hp, hd, rfl⟩
        · cases h
      · rename_i hp
        refine .inr ⟨hp, ?_⟩
        split at h
        · rename_i hf
          cases h
          exact .inr (.inr ⟨hf.1, hf.2, rfl⟩)
        · rename_i hf
          split at h
          · rename_i hd
            cases h
            exact .inr (.inl ⟨hd, fun hw hc => hf ⟨hw, hc⟩, rfl⟩)
          · split at h
            · rename_i hc
              cases h
              exact .inl ⟨hc, rfl⟩
            · cases h

/-- A character goes to the end of the directive. -/
theorem chars_extend {p q : Parts} {c : Char} (h : p.extend c = some q) :
    q.chars = p.chars ++ [c] := by
  obtain ⟨-, rfl⟩ | ⟨hl, ⟨ds, hp, -, rfl⟩ | ⟨hp, ⟨rfl, rfl⟩ | ⟨-, -, rfl⟩ | ⟨hw, -, rfl⟩⟩⟩ :=
    extend_cases h <;> simp_all [chars, point]

theorem forall_mem_concat {P : Char → Prop} {cs : List Char} {c : Char} :
    (∀ x ∈ cs ++ [c], P x) ↔ (∀ x ∈ cs, P x) ∧ P c := by
  simp [or_imp, forall_and]

/-- A zero goes to the flags as long as there is no width. -/
theorem regular_extend {p q : Parts} {c : Char} (hp : p.Regular) (h : p.extend c = some q) :
    q.Regular := by
  obtain ⟨hc, rfl⟩ | ⟨hl, ⟨ds, hprec, hd, rfl⟩ | ⟨hprec, ⟨rfl, rfl⟩ | ⟨hd, hw, rfl⟩ | ⟨hw, hc, rfl⟩⟩⟩ :=
    extend_cases h
  · exact { hp with lengths := forall_mem_concat.mpr ⟨hp.lengths, hc⟩ }
  · refine { hp with precision := fun ds' hds' => ?_ }
    cases hds'
    exact forall_mem_concat.mpr ⟨hp.precision ds hprec, hd⟩
  · refine { hp with precision := fun ds hds => ?_ }
    cases hds
    exact fun x hx => absurd hx List.not_mem_nil
  · refine { hp with width := forall_mem_concat.mpr ⟨hp.width, hd⟩, leading := ?_ }
    change (p.width ++ [c]).head? ≠ some '0'
    cases hws : p.width with
    | nil =>
      rintro ⟨⟩
      exact hw hws (by decide)
    | cons w ws =>
      have hleading := hp.leading
      rwa [hws] at hleading
  · exact { hp with flags := forall_mem_concat.mpr ⟨hp.flags, hc⟩ }

theorem of_mem_lengthChars : ∀ c ∈ lengthChars, c.isDigit = false ∧ c ≠ '.' ∧ c ∉ flagChars :=
  List.all_iff_forall_prop.mp (by decide)

theorem eq_zero_of_mem_flagChars : ∀ c ∈ flagChars, c.isDigit = true → c = '0' :=
  List.all_iff_forall_prop.mp (by decide)

/-- No character belongs to two kinds of part, apart from the zero, which is a flag and a digit. -/
theorem not_length_of_isDigit {c : Char} (hc : c.isDigit = true) : c ∉ lengthChars := by
  intro h
  rw [(of_mem_lengthChars c h).1] at hc
  cases hc

theorem not_length_of_flag {c : Char} (hc : c ∈ flagChars) : c ∉ lengthChars :=
  fun h => (of_mem_lengthChars c h).2.2 hc

/-- Whatever stands behind a percent sign has a last character. -/
theorem exists_extend {q : Parts} (hq : q.Regular) (hne : q ≠ start) :
    ∃ (p : Parts) (c : Char), p.Regular ∧ p.extend c = some q := by
  obtain ⟨flags, width, precision, lengths⟩ := q
  rcases List.eq_nil_or_concat' lengths with rfl | ⟨ls, c, rfl⟩
  · cases precision with
    | some ds =>
      rcases List.eq_nil_or_concat' ds with rfl | ⟨ds, c, rfl⟩
      · refine ⟨⟨flags, width, none, []⟩, '.', { hq with precision := nofun }, ?_⟩
        simp [extend, flagChars, lengthChars]
      · have hds := forall_mem_concat.mp (hq.precision _ rfl)
        refine ⟨⟨flags, width, some ds, []⟩, c, { hq with precision := ?_ }, ?_⟩
        · rintro _ ⟨⟩
          exact hds.1
        · simp [extend, not_length_of_isDigit hds.2, hds.2]
    | none =>
      rcases List.eq_nil_or_concat' width with rfl | ⟨ws, c, rfl⟩
      · rcases List.eq_nil_or_concat' flags with rfl | ⟨fs, c, rfl⟩
        · exact absurd rfl hne
        · have hfs := forall_mem_concat.mp hq.flags
          refine ⟨⟨fs, [], none, []⟩, c, { hq with flags := hfs.1 }, ?_⟩
          simp [extend, not_length_of_flag hfs.2, hfs.2]
      · have hws := forall_mem_concat.mp hq.width
        have hleading : ws = [] → c ∉ flagChars := by
          rintro rfl hc
          exact hq.leading (congrArg some (eq_zero_of_mem_flagChars c hc hws.2))
        refine ⟨⟨flags, ws, none, []⟩, c, { hq with width := hws.1, leading := ?_ }, ?_⟩
        · intro h
          exact hq.leading (by rw [List.head?_append, h]; rfl)
        · simpa [extend, not_length_of_isDigit hws.2, hws.2] using hleading
  · have hls := forall_mem_concat.mp hq.lengths
    exact ⟨⟨flags, width, precision, ls⟩, c, { hq with lengths := hls.1 }, if_pos hls.2⟩

def bytes (p : Parts) : List UInt8 := Text.encode p.chars

theorem ascii_of_mem_flagChars : ∀ c ∈ flagChars, IsAscii c :=
  List.all_iff_forall_prop.mp (by decide)

theorem ascii_of_mem_lengthChars : ∀ c ∈ lengthChars, IsAscii c :=
  List.all_iff_forall_prop.mp (by decide)

/-- Only ASCII characters belong to a directive, so that characters and bytes come to the same. -/
theorem ascii_extend {p q : Parts} {c : Char} (h : p.extend c = some q) : IsAscii c := by
  obtain ⟨hc, -⟩ | ⟨-, ⟨-, -, hd, -⟩ | ⟨-, ⟨rfl, -⟩ | ⟨hd, -⟩ | ⟨-, hc, -⟩⟩⟩ := extend_cases h
  · exact ascii_of_mem_lengthChars c hc
  · exact Text.isAscii_of_isDigit hd
  · decide
  · exact Text.isAscii_of_isDigit hd
  · exact ascii_of_mem_flagChars c hc

theorem bytes_extend {p q : Parts} {b : UInt8} (h : p.extend (charOf b) = some q) :
    q.bytes = p.bytes ++ [b] := by
  have hb : b.toNat < 128 := Text.toNat_charOf b ▸ ascii_extend h
  rw [bytes, chars_extend h, Text.encode_append, Text.encode_charOf hb, bytes]

theorem bytes_start : start.bytes = [0x25] := rfl

/-- Directives are made of a percent sign by one byte after the other. -/
theorem induct {P : Parts → Prop} (hstart : P start)
    (hstep : ∀ (p q : Parts) (b : UInt8), p.Regular → P p → p.extend (charOf b) = some q → P q)
    {q : Parts} (hq : q.Regular) : P q := by
  induction hn : q.chars.length generalizing q with
  | zero => simp [chars] at hn
  | succ n ih =>
    by_cases hne : q = start
    · exact hne ▸ hstart
    · obtain ⟨p, c, hp, hc⟩ := exists_extend hq hne
      obtain ⟨b, rfl, -⟩ := Text.exists_byte (ascii_extend hc)
      rw [chars_extend hc, List.length_append, List.length_singleton, Nat.add_right_cancel_iff] at hn
      exact hstep p q b hp (ih hp hn) hc

theorem bytes_ne_nil (p : Parts) : p.bytes ≠ [] := by
  simp [bytes, chars, Text.encode, String.utf8EncodeChar]

/-- The last byte of a directive was its last step. -/
theorem exists_extend_of_bytes {q : Parts} (hq : q.Regular) {as : List UInt8} {b : UInt8}
    (has : as ≠ []) (h : q.bytes = as ++ [b]) :
    ∃ p : Parts, p.Regular ∧ p.bytes = as ∧ p.extend (charOf b) = some q := by
  have hne : q ≠ start := by
    rintro rfl
    rw [bytes_start] at h
    exact has (List.append_eq_singleton_iff.mp h.symm |>.resolve_right (by simp)).1
  obtain ⟨p, c, hp, hc⟩ := exists_extend hq hne
  obtain ⟨b', rfl, -⟩ := Text.exists_byte (ascii_extend hc)
  obtain ⟨hbytes, hlast⟩ := List.append_inj' ((bytes_extend hc).symm.trans h) rfl
  cases hlast
  exact ⟨p, hp, hbytes, hc⟩

theorem bytes_inj {p q : Parts} (hp : p.Regular) (hq : q.Regular) (h : p.bytes = q.bytes) :
    p = q := by
  have hinj : ∀ q : Parts, q.Regular → p.bytes = q.bytes → p = q := by
    refine induct (P := fun p => ∀ q : Parts, q.Regular → p.bytes = q.bytes → p = q) ?_ ?_ hp
    · intro q hq h
      by_contra hne
      obtain ⟨p, c, -, hc⟩ := exists_extend hq (Ne.symm hne)
      have hlen := congrArg List.length h
      obtain ⟨b, rfl, -⟩ := Text.exists_byte (ascii_extend hc)
      rw [bytes_extend hc, bytes_start, List.length_append] at hlen
      exact bytes_ne_nil p (List.length_eq_zero_iff.mp (Nat.add_right_cancel hlen.symm))
    · intro p p' b _ ih hext q hq h
      rw [bytes_extend hext] at h
      obtain ⟨r, hr, hbytes, hlast⟩ := exists_extend_of_bytes hq (bytes_ne_nil p) h.symm
      rw [ih r hr hbytes.symm] at hext
      exact Option.some.inj (hext.symm.trans hlast)
  exact hinj q hq h

end Parts

structure Directive extends Parts where
  regular : toParts.Regular

namespace Directive

theorem ext_parts {d e : Directive} (h : d.toParts = e.toParts) : d = e := by
  cases d
  cases e
  cases h
  rfl

def start : Directive := ⟨.start, Parts.regular_start⟩

def GoesOn (d : Directive) (b : UInt8) : Prop := ∃ e : Directive, e.bytes = d.bytes ++ [b]

/-- A byte can belong to a directive exactly if the parts go on with it. -/
theorem goesOn_iff {d : Directive} {b : UInt8} :
    d.GoesOn b ↔ ∃ p, d.toParts.extend (charOf b) = some p := by
  constructor
  · rintro ⟨e, he⟩
    obtain ⟨p, hp, hbytes, hext⟩ := Parts.exists_extend_of_bytes e.regular d.bytes_ne_nil he
    exact ⟨e.toParts, Parts.bytes_inj hp d.regular hbytes ▸ hext⟩
  · rintro ⟨p, hp⟩
    exact ⟨⟨p, Parts.regular_extend d.regular hp⟩, Parts.bytes_extend hp⟩

theorem not_goesOn {d : Directive} {b : UInt8} (h : d.toParts.extend (charOf b) = none) :
    ¬ d.GoesOn b := by
  intro hd
  obtain ⟨p, hp⟩ := goesOn_iff.mp hd
  cases h.symm.trans hp

end Directive

inductive Token where
  | byte (b : UInt8) (plain : b ≠ 0x25)
  | directive (d : Directive) (last : UInt8) (ends : ¬ d.GoesOn last)

def Token.bytes : Token → List UInt8
  | .byte b _ => [b]
  | .directive d last _ => d.bytes ++ [last]

structure Reading where
  tokens : List Token
  unfinished : Option Directive

namespace Reading

def bytes (r : Reading) : List UInt8 :=
  r.tokens.flatMap Token.bytes ++ r.unfinished.elim [] (·.bytes)

def empty : Reading := ⟨[], none⟩

def push : Reading → UInt8 → Reading
  | ⟨ts, none⟩, b => if h : b = 0x25 then ⟨ts, some .start⟩ else ⟨ts ++ [.byte b h], none⟩
  | ⟨ts, some d⟩, b =>
    match h : d.toParts.extend (charOf b) with
    | some p => ⟨ts, some ⟨p, Parts.regular_extend d.regular h⟩⟩
    | none => ⟨ts ++ [.directive d b (Directive.not_goesOn h)], none⟩

variable {ts : List Token} {d : Directive} {b : UInt8}

theorem push_plain (h : b ≠ 0x25) : push ⟨ts, none⟩ b = ⟨ts ++ [.byte b h], none⟩ := dif_neg h

theorem push_percent : push ⟨ts, none⟩ 0x25 = ⟨ts, some .start⟩ := rfl

theorem push_extend {e : Directive} (h : d.toParts.extend (charOf b) = some e.toParts) :
    push ⟨ts, some d⟩ b = ⟨ts, some e⟩ := by
  simp only [push]
  split
  · rename_i p hp
    cases hp.symm.trans h
    rfl
  · rename_i hnone
    cases hnone.symm.trans h

/-- A byte that a directive cannot go on with ends it, whatever the byte is. -/
theorem push_ends (h : ¬ d.GoesOn b) :
    push ⟨ts, some d⟩ b = ⟨ts ++ [.directive d b h], none⟩ := by
  simp only [push]
  split
  · rename_i p hp
    exact absurd (Directive.goesOn_iff.mpr ⟨p, hp⟩) h
  · rfl

theorem push_cases (r : Reading) (b : UInt8) :
    (∃ h, r.unfinished = none ∧ r.push b = ⟨r.tokens ++ [.byte b h], none⟩) ∨
    (b = 0x25 ∧ r.unfinished = none ∧ r.push b = ⟨r.tokens, some .start⟩) ∨
    ∃ d, r.unfinished = some d ∧
      ((∃ e : Directive, d.toParts.extend (charOf b) = some e.toParts ∧
        r.push b = ⟨r.tokens, some e⟩) ∨
      ∃ h : ¬ d.GoesOn b, r.push b = ⟨r.tokens ++ [.directive d b h], none⟩) := by
  obtain ⟨ts, _ | d⟩ := r
  · by_cases h : b = 0x25
    · subst h
      exact .inr (.inl ⟨rfl, rfl, push_percent⟩)
    · exact .inl ⟨h, rfl, push_plain h⟩
  · refine .inr (.inr ⟨d, rfl, ?_⟩)
    by_cases h : d.GoesOn b
    · obtain ⟨p, hp⟩ := Directive.goesOn_iff.mp h
      let e : Directive := ⟨p, Parts.regular_extend d.regular hp⟩
      exact .inl ⟨e, hp, push_extend (e := e) hp⟩
    · exact .inr ⟨h, push_ends h⟩

/-- No byte of the format is lost. -/
theorem bytes_push (r : Reading) (b : UInt8) : (r.push b).bytes = r.bytes ++ [b] := by
  obtain ⟨h, hr, hpush⟩ | ⟨rfl, hr, hpush⟩ | ⟨d, hr, ⟨e, he, hpush⟩ | ⟨h, hpush⟩⟩ := push_cases r b
  · simp [hpush, bytes, hr, Token.bytes]
  · simp [hpush, bytes, hr, Directive.start, Parts.bytes_start]
  · simp [hpush, bytes, hr, Parts.bytes_extend he]
  · simp [hpush, bytes, hr, Token.bytes]

/-- Every reading but that of nothing has a last byte. -/
theorem exists_push {r : Reading} (h : r ≠ empty) : ∃ (s : Reading) (b : UInt8), s.push b = r := by
  obtain ⟨ts, _ | d⟩ := r
  · rcases List.eq_nil_or_concat' ts with rfl | ⟨ts, t, rfl⟩
    · exact absurd rfl h
    · cases t with
      | byte b plain => exact ⟨⟨ts, none⟩, b, push_plain plain⟩
      | directive d last ends => exact ⟨⟨ts, some d⟩, last, push_ends ends⟩
  · by_cases hd : d.toParts = .start
    · obtain rfl : d = .start := Directive.ext_parts hd
      exact ⟨⟨ts, none⟩, 0x25, push_percent⟩
    · obtain ⟨p, c, hp, hc⟩ := Parts.exists_extend d.regular hd
      obtain ⟨b, rfl, -⟩ := Text.exists_byte (Parts.ascii_extend hc)
      exact ⟨⟨ts, some ⟨p, hp⟩⟩, b, push_extend hc⟩

def read (format : List UInt8) : Reading := format.foldl push empty

theorem bytes_read (format : List UInt8) : (read format).bytes = format := by
  induction format using List.reverseRecOn with
  | nil => rfl
  | append_singleton format b ih =>
    rw [read, List.foldl_append, List.foldl_cons, List.foldl_nil, bytes_push]
    exact congrArg (· ++ [b]) ih

/-- Readings are made of nothing by one byte after the other. -/
theorem induct {P : Reading → Prop} (hempty : P empty) (hpush : ∀ r b, P r → P (r.push b))
    (r : Reading) : P r := by
  induction hn : r.bytes.length generalizing r with
  | zero =>
    by_cases hne : r = empty
    · exact hne ▸ hempty
    · obtain ⟨s, b, rfl⟩ := exists_push hne
      simp [bytes_push] at hn
  | succ n ih =>
    by_cases hne : r = empty
    · exact hne ▸ hempty
    · obtain ⟨s, b, rfl⟩ := exists_push hne
      rw [bytes_push, List.length_append, List.length_singleton, Nat.add_right_cancel_iff] at hn
      exact hpush s b (ih s hn)

/-- The reading of a format is the only one it has. -/
theorem read_bytes (r : Reading) : read r.bytes = r := by
  induction r using induct with
  | hempty => rfl
  | hpush r b ih =>
    rw [bytes_push, read, List.foldl_append, List.foldl_cons, List.foldl_nil]
    exact congrArg (push · b) ih

/-- A format can be read in exactly one way. -/
theorem existsUnique_reading (format : List UInt8) : ∃! r : Reading, r.bytes = format :=
  ⟨read format, bytes_read format, fun r hr => hr ▸ (read_bytes r).symm⟩

end Reading

end TreeLang.Format
