import OpsLang.Proofs.OpenBlocks.Tracking

/-!
# What stands between blocks

Expressions, the statements without blocks, semicolons and declarations take no word that
opens or ends a block, and every fault in them is one of grammar : `blockless_expression`,
`blockless_plainStatement` and so on, one for each production.
-/

namespace OpsLang

namespace Grammar

open Reader

variable {room : Nat}

/-! ## Expressions -/

theorem blockless_memberRound : memberRound.Blockless :=
  (blockless_eat rfl).bind fun _ => .ite
    (fun _ => (blockless_member _).bind fun _ => .pure _) fun _ => .pure _

theorem blockless_path : path.Blockless := by
  rw [path_eq]
  exact (blockless_name _).bind fun _ => (Blockless.many blockless_memberRound).bind fun _ =>
    .pure _

theorem blockless_operation {right : Nat → Reader Expr} (h : ∀ n, (right n).Blockless)
    (floor : Nat) : (operation floor right).Blockless := by
  intro s hs
  rw [operation_run]
  split
  · next op hop =>
    have ht : s.token.isBlockless = true := by
      rw [BinaryOp.ofToken?_eq_some.1 hop]
      cases op <;> rfl
    split
    · exact .pure _ _
    · exact .of_advance ((h _ _ hs.advance).map hs.advance _) hs ht
  · exact .pure _ _

theorem blockless_number {s : Stream} (hs : s.Ends) {lexeme : String}
    (ht : s.token = .number lexeme) : (number lexeme s).Blockless s := by
  have htoken : s.token.isBlockless = true := by rw [ht]; rfl
  rw [number_run]
  split
  · next u hu =>
    have hunit : s.advance.token.isBlockless = true := by rw [hu]; rfl
    split
    · exact .of_advance (.of_advance (.pure _ _) hs.advance hunit) hs htoken
    · exact .of_advance (.pure _ _) hs htoken
  · exact .of_advance (.pure _ _) hs htoken

section Values

variable {value : Reader Expr} (h : value.Blockless)

include h

theorem blockless_argument : (argument value).Blockless := by
  intro s hs
  rw [argument_run]
  split
  · next n hn hassign =>
    have hadv : s.advance.token = .symbol .assign := by
      rw [Stream.token_advance_of_next (by simp [hassign]), hassign]
    exact .of_advance (.of_advance ((h _ hs.advance.advance).map hs.advance.advance _) hs.advance
      (by rw [hadv]; rfl)) hs (by rw [hn]; rfl)
  · exact (h _ hs).map hs _

theorem blockless_argumentRound : (argumentRound value).Blockless := by
  intro s hs
  rw [argumentRound_run]
  split
  · exact .pure _ _
  · refine (blockless_argument h _ hs).andThen hs fun a s' hs' => ?_
    split
    · next ht => exact .of_advance (.pure _ _) hs' (by rw [ht]; rfl)
    · exact .pure _ _

theorem blockless_arguments : (arguments value).Blockless := by
  rw [arguments_eq]
  exact (blockless_symbol _).bind fun _ =>
    (Blockless.many (blockless_argumentRound h)).bind fun _ => (blockless_symbol _).bind fun _ =>
      .pure _

theorem blockless_nameOrCall : (nameOrCall value).Blockless := by
  intro s hs
  rw [nameOrCall_run]
  refine (blockless_path _ hs).andThen hs fun p s' hs' => ?_
  split
  · exact (blockless_arguments h _ hs').map hs' _
  · split <;> exact .pure _ _

theorem blockless_activityReference : (activityReference value).Blockless := by
  intro s hs
  rw [activityReference_run]
  refine (blockless_path _ hs).andThen hs fun p s' hs' => ?_
  split
  · exact (blockless_arguments h _ hs').map hs' _
  · exact .pure _ _

theorem blockless_primary : (primary value).Blockless := by
  intro s hs
  rw [primary_run]
  split
  · next ht => exact blockless_number hs ht
  · next ht => exact .of_advance (.pure _ _) hs (by rw [ht]; rfl)
  · next ht => exact .of_advance (.pure _ _) hs (by rw [ht]; rfl)
  · next ht =>
    refine .of_advance ?_ hs (by rw [ht]; rfl)
    exact (h _ hs.advance).andThen hs.advance fun e s' hs' =>
      (blockless_symbol _ _ hs').map hs' _
  · exact blockless_nameOrCall h _ hs
  · exact .fail rfl
  · exact .fail rfl

theorem blockless_operand {behind : Reader Expr} (hb : behind.Blockless) :
    (operand behind value).Blockless := by
  intro s hs
  rw [operand_run]
  split
  · next op hop =>
    refine .of_advance ((hb _ hs.advance).map hs.advance _) hs ?_
    rw [UnaryOp.ofToken?_eq_some.1 hop]
    cases op <;> rfl
  · exact blockless_primary h _ hs

end Values

mutual

theorem blockless_binaryAt : ∀ room floor : Nat, (binaryAt room floor).Blockless
  | 0, _ => .tooDeep
  | room + 1, floor => by
    rw [binaryAt]
    exact (blockless_operand (blockless_binaryAt room 1) (blockless_unaryAt room)).bind fun _ =>
      (Blockless.many (blockless_operation (blockless_binaryAt room) floor)).bind fun _ => .pure _

theorem blockless_unaryAt : ∀ room : Nat, (unaryAt room).Blockless
  | 0 => .tooDeep
  | room + 1 => by
    rw [unaryAt]
    exact blockless_operand (blockless_binaryAt room 1) (blockless_unaryAt room)

end

theorem blockless_expression (room : Nat) : (expression room).Blockless :=
  blockless_binaryAt room 1

/-! ## Statements without blocks -/

theorem blockless_semicolons : semicolons.Blockless := by
  have hround : semicolonRound.Blockless :=
    (blockless_eat rfl).bind fun _ => .ite (fun _ => .pure _) fun _ => .pure _
  exact (Blockless.many hround).bind fun _ => .pure _

section Statements

variable {expr : Reader Expr} (h : expr.Blockless) (line : Nat)

include h

theorem blockless_confirmOperand : (confirmOperand expr line).Blockless := by
  intro s hs
  have hcondition : (confirmCondition expr line s).Blockless s := (h _ hs).map hs _
  unfold confirmOperand
  split
  · have hactivity := blockless_activityReference h _ hs
    split
    · next heq =>
      split
      · exact hcondition
      · rw [heq] at hactivity
        cases hactivity with
        | ok heq' hus => exact .ok heq' hus
    · exact hcondition
    · exact .endless
  · exact hcondition

/-- The keyword in front of a statement is taken with it. -/
theorem blockless_bareStatement {block : BlockReader} {s : Stream} (hs : s.Ends)
    (hif : s.token ≠ .keyword .if_) (hwhile : s.token ≠ .keyword .while_)
    (hfor : s.token ≠ .keyword .for_) :
    ((bareStatement expr block line).outcome s).Blockless s := by
  have hadv := hs.advance
  rw [bareStatement_run]
  split
  · next ht =>
    refine .of_advance (o := initiate expr line s) ?_ hs (by rw [ht]; rfl)
    refine Blockless.bind (blockless_eat rfl) (fun _ => .ite (fun _ => ?_) fun _ => ?_) _ hadv
    · exact (blockless_keyword rfl).bind fun _ => (blockless_activityReference h).bind fun _ =>
        .pure _
    · exact (blockless_activityReference h).bind fun _ => .pure _
  · next ht =>
    exact .of_advance (o := confirm expr line s) (blockless_confirmOperand h line _ hadv) hs
      (by rw [ht]; rfl)
  · next ht =>
    refine .of_advance (o := wait expr line s) ?_ hs (by rw [ht]; rfl)
    exact Blockless.bind (blockless_keyword rfl) (fun _ => h.bind fun _ => .pure _) _ hadv
  · next ht => exact absurd ht hif
  · next ht => exact absurd ht hwhile
  · next ht => exact absurd ht hfor
  · rw [plainStatement_run]
    split
    · next n hn hassign =>
      have hsecond : s.advance.token = .symbol .assign := by
        rw [Stream.token_advance_of_next (by simp [hassign]), hassign]
      exact .of_advance (.of_advance ((h _ hadv.advance).map hadv.advance _) hadv
        (by rw [hsecond]; rfl)) hs (by rw [hn]; rfl)
    · exact (h _ hs).map hs _
    · exact .fail rfl
    · exact (h _ hs).map hs _

end Statements

/-! ## Declarations -/

theorem blockless_namedType : namedType.Blockless := by
  intro s hs
  rw [namedType_run]
  refine (blockless_path _ hs).andThen hs fun p s' _ => ?_
  split
  · split <;> exact .pure _ _
  · exact .pure _ _

theorem blockless_arraySize : arraySize.Blockless := by
  intro s hs
  rw [arraySize_run]
  split
  · next ht =>
    split
    · exact .of_advance (.pure _ _) hs (by rw [ht]; rfl)
    · exact .fail rfl
  · exact .fail rfl

section Types

variable {inner : Reader TypeExpr} (h : inner.Blockless)

include h

theorem blockless_arrayType : (arrayType inner).Blockless :=
  (blockless_symbol _).bind fun _ => h.bind fun _ => (blockless_symbol _).bind fun _ =>
    blockless_arraySize.bind fun _ => (blockless_symbol _).bind fun _ => .pure _

theorem blockless_fieldRound : (fieldRound inner).Blockless := by
  have hfield : (field inner).Blockless :=
    (blockless_member _).bind fun _ => (blockless_symbol _).bind fun _ => h.bind fun _ => .pure _
  intro s hs
  rw [fieldRound, bind_run, peek_run, Outcome.andThen_ok, ite_run]
  split
  · exact .pure _ _
  · exact hfield.bind (fun _ => (blockless_eat rfl).bind fun _ =>
      .ite (fun _ => .pure _) fun _ => .pure _) _ hs

theorem blockless_structType : (structType inner).Blockless := by
  rw [structType_eq]
  exact (blockless_keyword rfl).bind fun _ => (blockless_symbol _).bind fun _ =>
    (Blockless.many (blockless_fieldRound h)).bind fun _ => (blockless_symbol _).bind fun _ =>
      .pure _

theorem blockless_typeOf : (typeOf inner).Blockless := by
  intro s hs
  rw [typeOf_run]
  split
  · exact blockless_structType h _ hs
  · exact blockless_arrayType h _ hs
  · exact blockless_namedType _ hs
  · exact .fail rfl

theorem blockless_typeDeclaration {s : Stream} (hs : s.Ends) (ht : s.token = .keyword .type) :
    (typeDeclaration inner s).Blockless s := by
  rw [typeDeclaration_run]
  refine .of_advance ?_ hs (by rw [ht]; rfl)
  refine (blockless_name _).bind (fun _ => (blockless_typeOf h).bind fun t => ?_) _ hs.advance
  cases t with
  | named p => exact .failAt fun _ => rfl
  | _ => exact .pure _

end Types

theorem blockless_typeAt : ∀ room : Nat, (typeAt room).Blockless
  | 0 => .tooDeep
  | room + 1 => blockless_typeOf (blockless_typeAt room)

theorem blockless_childRound {inner : Reader Declaration} (h : inner.Blockless) :
    (childRound inner).Blockless := by
  intro s hs
  rw [childRound_run]
  refine (blockless_semicolons _ hs).andThen hs fun _ s' hs' => ?_
  split
  · next ht => exact .of_advance (.pure _ _) hs' (by rw [ht]; rfl)
  · exact (h _ hs').map hs' _
  · exact (h _ hs').map hs' _
  · exact .fail rfl

theorem blockless_declarationOf {inner : Reader Declaration} (h : inner.Blockless) :
    (declarationOf (typeAt room) inner).Blockless := by
  intro s hs
  rw [declarationOf_run]
  split
  · next ht =>
    rw [namespaceDeclaration_run]
    refine .of_advance ?_ hs (by rw [ht]; rfl)
    exact Blockless.bind blockless_path (fun _ => (blockless_symbol _).bind fun _ =>
      (Blockless.many (blockless_childRound h)).bind fun _ => .pure _) _ hs.advance
  · next ht => exact blockless_typeDeclaration (blockless_typeAt room) hs ht
  · exact .fail rfl

theorem blockless_declarationAt : ∀ room : Nat, (declarationAt room).Blockless
  | 0 => .tooDeep
  | room + 1 => blockless_declarationOf (blockless_declarationAt room)

theorem blockless_declaration (room : Nat) : (declaration room).Blockless :=
  blockless_declarationOf (blockless_declarationAt room)

end Grammar

end OpsLang
