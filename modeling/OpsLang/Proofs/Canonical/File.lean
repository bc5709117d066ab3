import OpsLang.Layout.File
import OpsLang.Proofs.Canonical.Statement

/-!
# The tokens of a file's text

The tokens of types, declarations, procedures and files, in the manner of
`Statement.tokens`. The text of a file that a reader could have built is read as its tokens
and the end of the text (`SourceFile.tokenize_text`).

An array size is written as a decimal, whichever way it was spelled. It is the only token
whose spelling the text may change, and it keeps its value (`Numeral.toUInt64?_decimal`).
-/

namespace OpsLang

/-! ## Array sizes -/

section Decimal

theorem isDigit_of_mem_decimal {n : Nat} {c : Char} (h : c ∈ (toString n).toList) :
    c.isDigit = true := by
  rw [Nat.toString_eq_repr, Nat.toList_repr] at h
  exact Nat.isDigit_of_mem_toDigits (by decide) (by decide) h

theorem decimal_ne_nil (n : Nat) : (toString n).toList ≠ [] := by
  rw [Nat.toString_eq_repr, Nat.toList_repr]
  exact Nat.toDigits_ne_nil

theorem isNumber_decimal (n : Nat) : IsNumber (toString n).toList := by
  have hdigits : IsDigits (toString n).toList :=
    ⟨decimal_ne_nil n, fun d hd => isDigit_of_mem_decimal hd⟩
  simpa using IsNumber.decimal hdigits .none .none

theorem digitValue?_of_isDigit {c : Char} (h : c.isDigit = true) :
    digitValue? c = some (c.toNat - '0'.toNat) := by
  simp [digitValue?, h]

theorem isDigitOf_ten {c : Char} (h : c.isDigit = true) : isDigitOf 10 c = true := by
  have hc := isDigit_iff.1 h
  have hzero : '0'.toNat = 48 := rfl
  simp only [isDigitOf, digitOf?, digitValue?_of_isDigit h, hzero, Option.isSome_filter,
    Option.any_some, decide_eq_true_eq]
  omega

theorem isDigit_of_isDigitOf_ten {c : Char} (h : isDigitOf 10 c = true) : c.isDigit = true := by
  simp only [isDigitOf, digitOf?, Option.isSome_filter, Option.any_eq_true,
    decide_eq_true_eq] at h
  obtain ⟨d, hd, hlt⟩ := h
  unfold digitValue? at hd
  split at hd
  · next hc => exact hc
  all_goals
    split_ifs at hd
    all_goals
      obtain rfl := Option.some.inj hd
      omega

theorem digitsValue_ten {ds : List Char} (h : ∀ d ∈ ds, d.isDigit = true) :
    digitsValue 10 ds = Nat.ofDigitChars 10 ds 0 := by
  suffices hfold : ∀ n, ds.foldl (fun n d => 10 * n + (digitValue? d).getD 0) n =
      Nat.ofDigitChars 10 ds n from hfold 0
  intro n
  induction ds generalizing n with
  | nil => simp
  | cons d ds ih =>
    obtain ⟨hd, hds⟩ := List.forall_mem_cons.1 h
    rw [List.foldl_cons, digitValue?_of_isDigit hd, Option.getD_some, ih hds,
      Nat.ofDigitChars_cons]

theorem digitsValue_decimal (n : Nat) : digitsValue 10 (toString n).toList = n := by
  rw [digitsValue_ten fun d => isDigit_of_mem_decimal, Nat.toString_eq_repr, Nat.toList_repr,
    Nat.ofDigitChars_ten_toDigits]

theorem radixSplit?_of_digits {ds : List Char} (h : ∀ d ∈ ds, d.isDigit = true) :
    radixSplit? ds = none := by
  unfold radixSplit?
  split
  all_goals first
    | rfl
    | exact absurd (h _ (List.mem_cons_of_mem _ List.mem_cons_self)) (by decide)

theorem wholeValue?_decimal (n : Nat) : wholeValue? 10 (toString n).toList = some n := by
  have hdigits : ∀ d ∈ (toString n).toList, d.isDigit = true := fun d => isDigit_of_mem_decimal
  have hplus : (toString n).toList.head? ≠ some '+' := by
    intro h
    exact absurd (hdigits '+' (List.mem_of_mem_head? h)) (by decide)
  have hall : (toString n).toList.all (isDigitOf 10) = true :=
    List.all_eq_true.2 fun d hd => isDigitOf_ten (hdigits d hd)
  have hempty : (toString n).toList.isEmpty = false := by simp
  simp only [wholeValue?, hplus, if_false, digitsValue_decimal, hall, hempty, Bool.not_false,
    Bool.and_self, if_true]

/-- Digits hold nothing that makes a numeral a decimal. -/
theorem any_point_eq_false {ds : List Char} (h : ∀ d ∈ ds, d.isDigit = true) :
    ds.any (fun c => c == '.' || c == 'e' || c == 'E') = false := by
  rw [List.any_eq_false]
  intro c hc hpoint
  simp only [Bool.or_eq_true, beq_iff_eq] at hpoint
  have hdigit := h c hc
  rcases hpoint with (rfl | rfl) | rfl <;> cases hdigit

/-- The value of an array size is kept by its decimal spelling. -/
theorem Numeral.toUInt64?_decimal (n : UInt64) :
    (ofLexeme (toString n.toNat)).toUInt64? = some n := by
  have hdigits : ∀ d ∈ (toString n.toNat).toList, d.isDigit = true :=
    fun d => isDigit_of_mem_decimal
  have hlt : n.toNat < UInt64.size := n.toNat_lt_size
  simp only [ofLexeme, any_point_eq_false hdigits, Bool.and_false, Bool.false_eq_true, if_false,
    toUInt64?, radixSplit?_of_digits hdigits, Option.getD_none, wholeValue?_decimal, hlt, if_true,
    UInt64.ofNat_toNat]

end Decimal

/-! ## Canonical tokens -/

mutual

/-- The tokens of a type. -/
def TypeExpr.tokens : TypeExpr → List Token
  | .primitive p => [.name p.text]
  | .array element size =>
    .symbol .leftBracket :: (element.tokens
      ++ [.symbol .semicolon, .number (toString size.toNat), .symbol .rightBracket])
  | .struct fields =>
    .keyword .struct :: .symbol .leftBrace :: (Field.allTokens fields ++ [.symbol .rightBrace])
  | .named p => p.tokens

/-- The tokens of a field. -/
def Field.tokens : Field → List Token
  | .mk n t => .member n :: .symbol .colon :: t.tokens

/-- The tokens of fields with commas between them. -/
def Field.allTokens : List Field → List Token
  | [] => []
  | f :: fs => f.tokens ++ if fs.isEmpty then [] else .symbol .comma :: Field.allTokens fs

end

mutual

/-- The tokens of a declaration. -/
def Declaration.tokens : Declaration → List Token
  | .space p ds _ =>
    .keyword .namespace_ :: (p.tokens
      ++ .symbol .leftBrace :: (Declaration.allTokens ds ++ [.symbol .rightBrace]))
  | .type n body _ => .keyword .type :: .name n :: body.type.tokens

/-- The tokens of declarations. -/
def Declaration.allTokens : List Declaration → List Token
  | [] => []
  | d :: ds => d.tokens ++ Declaration.allTokens ds

end

/-- The tokens of a section of a procedure. -/
def sectionTokens (kind : BlockKind) (body : Block) : List Token :=
  .keyword kind.closer :: (Block.tokens body ++ kind.endTokens)

/-- The tokens of a section that may be missing. -/
def optionalSectionTokens (kind : BlockKind) : Option Block → List Token
  | some body => sectionTokens kind body
  | none => []

/-- The tokens of a procedure. -/
def Procedure.tokens (p : Procedure) : List Token :=
  .keyword .procedure :: .name p.name :: (optionalSectionTokens .preconditions p.preconditions
    ++ (sectionTokens .main p.main ++ (optionalSectionTokens .confirmation p.confirmation
      ++ BlockKind.procedure.endTokens)))

/-- The tokens of an item. -/
def Item.tokens : Item → List Token
  | .procedure p => p.tokens
  | .declaration d => d.tokens

/-- The tokens of a file. -/
def SourceFile.tokens (f : SourceFile) : List Token :=
  f.items.flatMap Item.tokens

/-! ## Legible trees -/

mutual

/-- The type is one that is read inside `room` levels. -/
def TypeExpr.Legible : Nat → TypeExpr → Prop
  | 0, _ => False
  | _ + 1, .primitive _ => True
  | room + 1, .array element _ => element.Legible room
  | room + 1, .struct fields => Field.AllLegible room fields
  | _ + 1, .named p => p.Legible ∧ ∀ n, p.segments = [n] → Primitive.ofText? n = none

/-- The field is one whose type is read inside `room` levels. -/
def Field.Legible : Nat → Field → Prop
  | room, .mk n t => ((Token.member n).IsMember n ∧ (Token.member n).Written) ∧ t.Legible room

/-- The types of the fields are read inside `room` levels. -/
def Field.AllLegible : Nat → List Field → Prop
  | _, [] => True
  | room, f :: fs => f.Legible room ∧ Field.AllLegible room fs

end

mutual

/-- The declaration is one that is read inside `room` levels. -/
def Declaration.Legible : Nat → Declaration → Prop
  | 0, _ => False
  | room + 1, .space p ds _ => p.Legible ∧ Declaration.AllLegible room ds
  | room + 1, .type n body _ => IsName n ∧ body.type.Legible (room + 1)

/-- The declarations are read inside `room` levels. -/
def Declaration.AllLegible : Nat → List Declaration → Prop
  | _, [] => True
  | room, d :: ds => d.Legible room ∧ Declaration.AllLegible room ds

end

/-- The procedure is one that is read where blocks have `room` levels. -/
structure Procedure.Legible (room : Nat) (p : Procedure) : Prop where
  name : IsName p.name
  preconditions : ∀ b ∈ p.preconditions, Block.Legible room b
  main : Block.Legible room p.main
  confirmation : ∀ b ∈ p.confirmation, Block.Legible room b

/-- The item is one that is read where blocks and declarations have `room` levels. -/
def Item.Legible (room : Nat) : Item → Prop
  | .procedure p => p.Legible room
  | .declaration d => d.Legible (room + 1)

/-- The items are ones that are read where blocks and declarations have `room` levels. -/
def SourceFile.Legible (room : Nat) (f : SourceFile) : Prop :=
  ∀ i ∈ f.items, i.Legible room

/-! ## Reading the text -/

theorem isName_primitive (p : Primitive) : IsName p.text := by
  have hword : isWord p.text.toList = true := by cases p <;> rfl
  refine .of_isWord hword ?_ ?_ ?_
  · cases p <;> rfl
  · cases p <;> decide
  · cases p <;> decide

theorem TypeExpr.not_legible_zero {t : TypeExpr} : ¬t.Legible 0 := by
  cases t <;> simp [TypeExpr.Legible]

theorem Declaration.not_legible_zero {d : Declaration} : ¬d.Legible 0 := by
  cases d <;> simp [Declaration.Legible]

/-- A text between braces and blanks. -/
theorem Writes.braced {s : String} {ts : List Token} (h : Writes s ts) :
    Writes ("\x7b " ++ s ++ " \x7d")
      (.symbol .leftBrace :: (ts ++ [Token.symbol .rightBrace])) := by
  have hall := (Writes.symbol .leftBrace).spaced (h.spaced (.symbol .rightBrace))
  simp only [String.append_assoc] at hall ⊢
  exact hall

/-- A brace that closes behind one that opens. -/
theorem writes_braces : Writes "\x7b\x7d" [.symbol .leftBrace, .symbol .rightBrace] :=
  Writes.append_open .leftBrace (.symbol .rightBrace) fun _ => rfl

/-- An array type between brackets. -/
theorem Writes.bracketed {s x : String} {ts : List Token} (h : Writes s ts)
    (hx : IsNumber x.toList) :
    Writes ("[" ++ s ++ "; " ++ x ++ "]")
      (.symbol .leftBracket ::
        (ts ++ [Token.symbol .semicolon, .number x, .symbol .rightBracket])) := by
  have hsize := (Writes.symbol .semicolon).spaced (.number hx)
  have hrest := hsize.append_closed (.symbol .rightBracket) rfl rfl
  have hbody := h.append_closed (c := ';') hrest (by simp [Symbol.text]) rfl
  have hall := Writes.append_open .leftBracket hbody fun _ => rfl
  simp only [String.append_assoc] at hall ⊢
  exact hall

mutual

/-- The text of a type is read as its tokens. -/
theorem TypeExpr.writes : ∀ {room : Nat} (t : TypeExpr), t.Legible room → Writes t.text t.tokens
  | 0, _, h => absurd h TypeExpr.not_legible_zero
  | _ + 1, .primitive p, _ => .name (isName_primitive p)
  | _ + 1, .array element size, h =>
    (TypeExpr.writes element h).bracketed (isNumber_decimal size.toNat)
  | _ + 1, .struct [], _ => writes_braces.after .struct
  | _ + 1, .struct (f :: fs), h => by
    have hall := (Field.writes_list (f :: fs) h).braced.after .struct
    simp only [String.append_assoc] at hall
    simp only [TypeExpr.text, TypeExpr.tokens, String.append_assoc]
    exact hall
  | _ + 1, .named p, ⟨hp, _⟩ => Path.writes hp.written

theorem Field.writes : ∀ {room : Nat} (f : Field), f.Legible room → Writes f.text f.tokens
  | _, .mk n t, ⟨⟨_, hn⟩, ht⟩ => by
    have htype := (Writes.symbol .colon).spaced (TypeExpr.writes t ht)
    have hall := (Token.writes_member hn).append_closed (c := ':') htype (by simp [Symbol.text]) rfl
    simp only [String.append_assoc] at hall
    simp only [Field.text, Field.tokens, String.append_assoc]
    exact hall

theorem Field.writes_list : ∀ {room : Nat} (fs : List Field), Field.AllLegible room fs →
    Writes (", ".intercalate (Field.texts fs)) (Field.allTokens fs)
  | _, [], _ => .empty
  | _, [f], ⟨hf, _⟩ => by
    simpa [Field.texts, Field.allTokens] using Field.writes f hf
  | _, f :: g :: fs, ⟨hf, hfs⟩ => by
    have hall := (Field.writes f hf).listed (Field.writes_list (g :: fs) hfs)
    rw [Field.allTokens]
    simp only [Field.texts, String.intercalate_cons_cons]
    exact hall

end

mutual

/-- The lines of a declaration are read as its tokens. -/
theorem Declaration.prints : ∀ {room : Nat} (level : Nat) (d : Declaration), d.Legible room →
    Prints (d.lines level) d.tokens
  | 0, _, _, h => absurd h Declaration.not_legible_zero
  | _ + 1, level, .space p [] _, ⟨hp, _⟩ => by
    have hline := ((Path.writes hp.written).spaced writes_braces).after .namespace_
    have hall := hline.wordLine level
    simp only [String.append_assoc] at hall
    simp only [Declaration.lines, Declaration.tokens, String.append_assoc]
    exact hall
  | room + 1, level, .space p (d :: ds) _, ⟨hp, hds⟩ => by
    have hline := ((Path.writes hp.written).spaced (.symbol .leftBrace)).after .namespace_
    have hclose : Prints [indented level "\x7d"] [.symbol .rightBrace] :=
      .line level (.symbol .rightBrace) (by simp)
    have hbody := Declaration.prints_list (level + 1) (d :: ds) hds
    have hall := (hline.wordLine level).append (hbody.append hclose)
    simp only [List.append_assoc, String.append_assoc, Declaration.allLines, List.cons_append,
      List.nil_append] at hall
    simp only [Declaration.lines, Declaration.tokens, List.append_assoc, String.append_assoc,
      List.cons_append, List.nil_append]
    exact hall
  | _ + 1, level, .type n body _, ⟨hn, hbody⟩ => by
    have hline := ((Writes.name hn).spaced (TypeExpr.writes body.type hbody)).after .type
    have hall := hline.wordLine level
    simp only [String.append_assoc] at hall
    simp only [Declaration.lines, Declaration.tokens, String.append_assoc]
    exact hall

theorem Declaration.prints_list : ∀ {room : Nat} (level : Nat) (ds : List Declaration),
    Declaration.AllLegible room ds →
      Prints (Declaration.allLines level ds) (Declaration.allTokens ds)
  | _, _, [], _ => .nil
  | _, level, d :: ds, ⟨hd, hds⟩ =>
    (Declaration.prints level d hd).append (Declaration.prints_list level ds hds)

end

section Files

variable {room : Nat}

theorem prints_section (kind : BlockKind) {body : Block} (h : Block.Legible room body) :
    Prints (sectionLines kind body) (sectionTokens kind body) :=
  ((Writes.keyword kind.closer).wordLine 1).append
    ((Block.prints 2 body h).append (prints_end 1 kind))

theorem prints_optionalSection (kind : BlockKind) {body : Option Block}
    (h : ∀ b ∈ body, Block.Legible room b) :
    Prints (optionalSectionLines kind body) (optionalSectionTokens kind body) := by
  cases body with
  | none => exact .nil
  | some b => exact prints_section kind (h b rfl)

theorem indented_zero (l : String) : indented 0 l = l := by
  simp [indented]

/-- The lines of a procedure are read as its tokens. -/
theorem Procedure.prints {p : Procedure} (h : p.Legible room) : Prints p.lines p.tokens := by
  have hfirst := ((Writes.name h.name).after .procedure).wordLine 0
  have hlast := prints_end 0 .procedure
  rw [indented_zero] at hfirst hlast
  have hsections := (prints_optionalSection .preconditions h.preconditions).append
    ((prints_section .main h.main).append
      ((prints_optionalSection .confirmation h.confirmation).append hlast))
  have hall := hfirst.append hsections
  simp only [Procedure.lines, Procedure.tokens, List.append_assoc]
  exact hall

/-- The lines of an item are read as its tokens. -/
theorem Item.prints {i : Item} (h : i.Legible room) : Prints i.lines i.tokens := by
  cases i with
  | procedure p => exact Procedure.prints h
  | declaration d => exact Declaration.prints 0 d h

theorem linesText_append (ls ls' : List String) :
    linesText (ls ++ ls') = linesText ls ++ linesText ls' := by
  simp [linesText]

theorem linesText_cons_empty (ls : List String) : linesText ("" :: ls) = "\n" ++ linesText ls := by
  simp [linesText, String.join_cons]

/-- The text of items is one of lines, with an empty line between any two of them. -/
theorem exists_prints : ∀ {is : List Item}, (∀ i ∈ is, i.Legible room) →
    ∃ ls, "\n".intercalate (is.map fun i => linesText i.lines) = linesText ls ∧
      Prints ls (is.flatMap Item.tokens)
  | [], _ => ⟨[], rfl, .nil⟩
  | [i], h => by
    refine ⟨i.lines, by simp, ?_⟩
    simpa using Item.prints (h i List.mem_cons_self)
  | i :: j :: is, h => by
    obtain ⟨hi, his⟩ := List.forall_mem_cons.1 h
    obtain ⟨ls, htext, hls⟩ := exists_prints his
    refine ⟨i.lines ++ "" :: ls, ?_, ?_⟩
    · rw [linesText_append, linesText_cons_empty, ← htext, ← String.append_assoc]
      exact String.intercalate_cons_cons
    · have hempty : Prints ("" :: ls) ([] ++ (j :: is).flatMap Item.tokens) :=
        .cons .empty (by simp) hls
      exact (Item.prints hi).append hempty

/-- The text of a file that could have been read is read as the tokens of the file and the end
of the text. -/
theorem SourceFile.tokenize_text {f : SourceFile} (h : f.Legible room) :
    ∃ (us : List Located) (e : Located), tokenize f.text = .ok (us ++ [e]) ∧
      words us = f.tokens ∧ Fused us ∧ e.token = .eof := by
  obtain ⟨ls, htext, hls⟩ := exists_prints h
  rw [SourceFile.text, htext]
  exact hls.tokenize_eq

end Files

end OpsLang
