import OpsLang.CommandLine.Run
import OpsLang.Json.TreeReader
import OpsLang.Proofs.Json.Reading

/-!
# Trees are read back from their JSON form

The JSON form of a tree is read as the tree, at any depth that the weight of the form allows
(`Expr.read?_toJson`, `Statement.read?_toJson` and so on). A reader decides by the tag and looks
members up by their keys, so this is to say that no two constructors share a tag and no two
fields of one a key. It holds of the members of procedures and declarations also behind
others, for an item puts its own tag before them.

The form holds no number but integers (`SourceFile.whole_toJson`), so its text is read back as
well, and the trees of two files whose texts agree are equal (`SourceFile.toJson_pretty_inj`).
-/

namespace OpsLang

open Json

/-! ## Leaves -/

theorem mapM_map_eq_some {α β : Type} {f : β → Option α} {g : α → β} :
    ∀ {as : List α}, (∀ a ∈ as, f (g a) = some a) → (as.map g).mapM f = some as
  | [], _ => rfl
  | a :: as, h => by
    obtain ⟨ha, has⟩ := List.forall_mem_cons.1 h
    simp [List.mapM_cons, ha, mapM_map_eq_some has]

theorem Path.ofJson?_toJson (p : Path) : Path.ofJson? p.toJson = some p := by
  have hstrings : (p.segments.map Json.string).mapM asString? = some p.segments :=
    mapM_map_eq_some fun _ _ => rfl
  simp [Path.ofJson?, Path.toJson, strings, asStrings?, hstrings]

theorem NumeralKind.eq_of_text (k : NumeralKind) :
    (if k.text = "decimal" then decimal else integer) = k := by
  cases k <;> rfl

theorem Quantity.find?_text (q : Quantity) : (all.find? fun r => r.text = q.text) = some q := by
  cases q <;> rfl

theorem BinaryOp.find?_tag (op : BinaryOp) : (all.find? fun o => o.tag = op.tag) = some op := by
  cases op <;> rfl

theorem UnaryOp.find?_tag (op : UnaryOp) : (all.find? fun o => o.tag = op.tag) = some op := by
  cases op <;> rfl

theorem ActivityMode.find?_tag (m : ActivityMode) :
    ([initiate, confirm, initiateAndConfirm].find? fun n => n.tag = m.tag) = some m := by
  cases m <;> rfl

theorem Json.asWord?_size (n : UInt64) :
    (Json.integer n.toNat).asWord? UInt64.size = some n.toNat := by
  simp [asWord?, n.toNat_lt_size]

/-! ## Weights -/

theorem Json.weight_pos (j : Json) : 0 < j.weight := by
  cases j <;> simp [weight]

theorem Json.weight_le_itemsWeight {α : Type} (g : α → Json) {a : α} :
    ∀ {as : List α}, a ∈ as → (g a).weight ≤ itemsWeight (as.map g)
  | b :: bs, h => by
    rw [List.map_cons, itemsWeight]
    obtain rfl | h := List.mem_cons.1 h
    · omega
    · have := weight_le_itemsWeight g h
      omega

/-- Values are read where each of them is that the depth allows. -/
theorem Json.mapM_of_weight {α : Type} {read : Json → Option α} {g : α → Json} {depth : Nat}
    (hread : ∀ a, (g a).weight ≤ depth → read (g a) = some a) {as : List α}
    (h : itemsWeight (as.map g) ≤ depth) : (as.map g).mapM read = some as :=
  mapM_map_eq_some fun a ha => hread a ((weight_le_itemsWeight g ha).trans h)

theorem Json.membersWeight_append (ms ms' : List (String × Json)) :
    membersWeight (ms ++ ms') = membersWeight ms + membersWeight ms' := by
  induction ms with
  | nil => simp [membersWeight]
  | cons m ms ih =>
    simp only [List.cons_append, membersWeight, ih]
    omega

-- The readers look for members of objects that are given in full.
attribute [local simp] nat stringAt? itemsAt? truthAt? member? asString? lineOr0 Path.at?
  Path.ofJson?_toJson

/-! ## Expressions -/

attribute [local simp] Numeral.at? Numeral.toJson NumeralKind.eq_of_text UnitTag.at?
  UnitTag.toJson Quantity.find?_text BinaryOp.at? BinaryOp.find?_tag UnaryOp.at?
  UnaryOp.find?_tag

theorem Argument.allToJson_eq_map (as : List Argument) : allToJson as = as.map toJson := by
  induction as with
  | nil => rfl
  | cons a as ih => rw [allToJson, ih, List.map_cons]

theorem Argument.mapM_of_weight {depth : Nat}
    (hread : ∀ a : Argument, a.toJson.weight ≤ depth → read? depth a.toJson = some a)
    {as : List Argument} (h : itemsWeight (allToJson as) ≤ depth) :
    (allToJson as).mapM (read? depth) = some as := by
  rw [allToJson_eq_map] at h ⊢
  exact Json.mapM_of_weight hread h

mutual

theorem Expr.read?_toJson : ∀ (depth : Nat) (e : Expr), e.toJson.weight ≤ depth →
    Expr.read? depth e.toJson = some e
  | 0, e, h => absurd e.toJson.weight_pos (by omega)
  | _ + 1, .name _, _ | _ + 1, .number _, _ | _ + 1, .measure _ _, _ | _ + 1, .string _, _
  | _ + 1, .truth _, _ | _ + 1, .property _, _ => by
    simp [Expr.toJson, Expr.read?]
  | depth + 1, .call p as, h => by
    simp only [Expr.toJson, weight, membersWeight] at h
    have has : (Argument.allToJson as).mapM (Argument.read? depth) = some as :=
      Argument.mapM_of_weight (Argument.read?_toJson depth) (by omega)
    simp [Expr.toJson, Expr.read?, has]
  | depth + 1, .binary op l r, h => by
    simp only [Expr.toJson, weight, membersWeight] at h
    have hl := Expr.read?_toJson depth l (by omega)
    have hr := Expr.read?_toJson depth r (by omega)
    simp [Expr.toJson, Expr.read?, hl, hr]
  | depth + 1, .unary op e, h => by
    simp only [Expr.toJson, weight, membersWeight] at h
    have he := Expr.read?_toJson depth e (by omega)
    simp [Expr.toJson, Expr.read?, he]
  | depth + 1, .parens e, h => by
    simp only [Expr.toJson, weight, membersWeight] at h
    have he := Expr.read?_toJson depth e (by omega)
    simp [Expr.toJson, Expr.read?, he]

theorem Argument.read?_toJson : ∀ (depth : Nat) (a : Argument), a.toJson.weight ≤ depth →
    Argument.read? depth a.toJson = some a
  | 0, a, h => absurd a.toJson.weight_pos (by omega)
  | depth + 1, .positional v, h => by
    simp only [Argument.toJson, weight, membersWeight] at h
    have hv := Expr.read?_toJson depth v (by omega)
    simp [Argument.toJson, Argument.read?, hv]
  | depth + 1, .named n v, h => by
    simp only [Argument.toJson, weight, membersWeight] at h
    have hv := Expr.read?_toJson depth v (by omega)
    simp [Argument.toJson, Argument.read?, hv]

end

theorem Expr.read?_weight (e : Expr) : Expr.read? e.toJson.weight e.toJson = some e :=
  e.read?_toJson _ le_rfl

theorem Argument.mapM_read?_weight (as : List Argument) :
    (allToJson as).mapM (fun j => Argument.read? j.weight j) = some as := by
  rw [allToJson_eq_map]
  exact mapM_map_eq_some fun a _ => a.read?_toJson _ le_rfl

/-! ## Statements -/

attribute [local simp] Expr.at? Expr.read?_weight Argument.mapM_read?_weight ActivityMode.at?
  ActivityMode.find?_tag

/-- The JSON form of a branch. -/
def Branch.toJson (b : Branch) : Json :=
  .object [("condition", b.condition.toJson), ("body", Block.toJson b.body)]

theorem Branch.allToJson_eq_map (bs : List Branch) : allToJson bs = bs.map toJson := by
  induction bs with
  | nil => rfl
  | cons b bs ih =>
    obtain ⟨c, body⟩ := b
    rw [allToJson, ih, List.map_cons]
    rfl

theorem Statement.allToJson_eq_map (ss : List Statement) : allToJson ss = ss.map toJson := by
  induction ss with
  | nil => rfl
  | cons s ss ih => rw [allToJson, ih, List.map_cons]

theorem Block.readOptional?_blockJson (read : Json → Option Statement) (js : List Json) :
    Block.readOptional? read (blockJson js) = (Block.read? read (blockJson js)).map some := rfl

section Depth

variable {read : Json → Option Statement} {depth : Nat}
  (hread : ∀ s : Statement, s.toJson.weight ≤ depth → read s.toJson = some s)

include hread

theorem Block.read?_of_weight (body : List Statement)
    (h : (blockJson (Statement.allToJson body)).weight ≤ depth) :
    Block.read? read (blockJson (Statement.allToJson body)) = some body := by
  simp only [blockJson, weight, membersWeight] at h
  have hbody : (Statement.allToJson body).mapM read = some body := by
    rw [Statement.allToJson_eq_map] at h ⊢
    exact Json.mapM_of_weight hread (by omega)
  simp [Block.read?, blockJson, hbody]

theorem Branch.read?_of_weight (b : Branch) (h : b.toJson.weight ≤ depth) :
    Branch.read? read b.toJson = some b := by
  obtain ⟨c, body⟩ := b
  simp only [Branch.toJson, Branch.body, Block.toJson, weight, membersWeight] at h
  have hbody := Block.read?_of_weight hread body (by omega)
  simp [Branch.read?, Branch.toJson, Block.toJson, Branch.condition, Branch.body, hbody]

theorem Branch.mapM_of_weight (bs : List Branch) (h : itemsWeight (allToJson bs) ≤ depth) :
    (allToJson bs).mapM (Branch.read? read) = some bs := by
  rw [allToJson_eq_map] at h ⊢
  exact Json.mapM_of_weight (Branch.read?_of_weight hread) h

end Depth

theorem Statement.read?_toJson : ∀ (depth : Nat) (s : Statement), s.toJson.weight ≤ depth →
    Statement.read? depth s.toJson = some s
  | 0, s, h => absurd s.toJson.weight_pos (by omega)
  | _ + 1, .activity _ _ _ _, _ | _ + 1, .check _ _, _ | _ + 1, .wait _ _, _
  | _ + 1, .assign _ _ _, _ | _ + 1, .expr _ _, _ => by
    simp [Statement.toJson, Statement.read?]
  | depth + 1, .conditional branches none line, h => by
    simp only [Statement.toJson, weight, membersWeight] at h
    have hbranches :=
      Branch.mapM_of_weight (Statement.read?_toJson depth) branches (by omega)
    simp [Statement.toJson, Statement.read?, hbranches, Block.readOptional?]
  | depth + 1, .conditional branches (some body) line, h => by
    simp only [Statement.toJson, weight, membersWeight] at h
    have hbranches :=
      Branch.mapM_of_weight (Statement.read?_toJson depth) branches (by omega)
    have hbody := Block.read?_of_weight (Statement.read?_toJson depth) body (by omega)
    simp [Statement.toJson, Statement.read?, hbranches, Block.readOptional?_blockJson, hbody]
  | depth + 1, .whileLoop c body line, h => by
    simp only [Statement.toJson, weight, membersWeight] at h
    have hbody := Block.read?_of_weight (Statement.read?_toJson depth) body (by omega)
    simp [Statement.toJson, Statement.read?, hbody]
  | depth + 1, .forLoop n e body line, h => by
    simp only [Statement.toJson, weight, membersWeight] at h
    have hbody := Block.read?_of_weight (Statement.read?_toJson depth) body (by omega)
    simp [Statement.toJson, Statement.read?, hbody]

theorem Statement.ofJson?_toJson (s : Statement) : Statement.ofJson? s.toJson = some s :=
  s.read?_toJson _ le_rfl

theorem Block.ofJson?_toJson (b : Block) : Block.ofJson? b.toJson = some b :=
  Block.read?_of_weight (fun s _ => s.ofJson?_toJson) b le_rfl

theorem Block.readOptional?_toJson (b : Option Block) :
    Block.readOptional? Statement.ofJson? (optionalBlockJson b) = some b := by
  cases b with
  | none => rfl
  | some b => exact congrArg (Option.map some) (Block.ofJson?_toJson b)

/-! ## Declarations -/

attribute [local simp] Primitive.at? Primitive.ofText?_text sizeAt? asWord?_size

/-- The JSON form of a field. -/
def Field.toJson (f : Field) : Json :=
  .object [("name", .string f.name), ("ty", f.type.toJson)]

theorem Field.allToJson_eq_map (fs : List Field) : allToJson fs = fs.map toJson := by
  induction fs with
  | nil => rfl
  | cons f fs ih =>
    obtain ⟨n, t⟩ := f
    rw [allToJson, ih, List.map_cons]
    rfl

theorem Field.mapM_of_weight {read : Json → Option TypeExpr} {depth : Nat}
    (hread : ∀ t : TypeExpr, t.toJson.weight ≤ depth → read t.toJson = some t) (fs : List Field)
    (h : itemsWeight (allToJson fs) ≤ depth) :
    (allToJson fs).mapM (Field.read? read) = some fs := by
  rw [allToJson_eq_map] at h ⊢
  refine Json.mapM_of_weight (fun f hf => ?_) h
  obtain ⟨n, t⟩ := f
  simp only [Field.toJson, Field.type, weight, membersWeight] at hf
  have ht := hread t (by omega)
  simp [Field.toJson, Field.read?, Field.name, Field.type, ht]

theorem TypeExpr.read?_toJson : ∀ (depth : Nat) (t : TypeExpr), t.toJson.weight ≤ depth →
    TypeExpr.read? depth t.toJson = some t
  | 0, t, h => absurd t.toJson.weight_pos (by omega)
  | _ + 1, .primitive _, _ | _ + 1, .named _, _ => by
    simp [TypeExpr.toJson, TypeExpr.read?]
  | depth + 1, .array element size, h => by
    simp only [TypeExpr.toJson, weight, membersWeight] at h
    have helement := TypeExpr.read?_toJson depth element (by omega)
    simp [TypeExpr.toJson, TypeExpr.read?, helement]
  | depth + 1, .struct fields, h => by
    simp only [TypeExpr.toJson, weight, membersWeight] at h
    have hfields := Field.mapM_of_weight (TypeExpr.read?_toJson depth) fields (by omega)
    simp [TypeExpr.toJson, TypeExpr.read?, hfields]

theorem TypeExpr.ofJson?_toJson (t : TypeExpr) : TypeExpr.ofJson? t.toJson = some t :=
  t.read?_toJson _ le_rfl

theorem TypeBody.ofJson?_toJson (b : TypeBody) : TypeBody.ofJson? b.toJson = some b := by
  cases b with
  | struct fields =>
    have hfields := Field.mapM_of_weight (fun t _ => t.ofJson?_toJson) fields le_rfl
    simp [TypeBody.toJson, TypeBody.ofJson?, hfields]
  | primitive p => simp [TypeBody.toJson, TypeBody.ofJson?]
  | array element size => simp [TypeBody.toJson, TypeBody.ofJson?, TypeExpr.ofJson?_toJson]

theorem Declaration.allToJson_eq_map (ds : List Declaration) : allToJson ds = ds.map toJson := by
  induction ds with
  | nil => rfl
  | cons d ds ih =>
    rw [allToJson, ih, List.map_cons]
    rfl

/-- A declaration is read from its members, also behind others. -/
theorem Declaration.read?_members : ∀ (depth : Nat) (d : Declaration)
    (before : List (String × Json)), d.toJson.weight ≤ depth →
      Declaration.read? depth (.object (before ++ d.members)) = some d
  | 0, d, _, h => absurd d.toJson.weight_pos (by omega)
  | depth + 1, .space p children line, before, h => by
    simp only [Declaration.toJson, members, weight, membersWeight] at h
    have hread : ∀ d : Declaration, d.toJson.weight ≤ depth → read? depth d.toJson = some d :=
      fun d hd => Declaration.read?_members depth d [] hd
    have hchildren : (allToJson children).mapM (Declaration.read? depth) = some children := by
      rw [allToJson_eq_map] at h ⊢
      exact Json.mapM_of_weight hread (by omega)
    simp [members, Declaration.read?, hchildren]
  | depth + 1, .type n body line, before, _ => by
    simp [members, Declaration.read?, TypeBody.ofJson?_toJson]

/-! ## Files -/

theorem Procedure.ofJson?_members (p : Procedure) (before : List (String × Json)) :
    Procedure.ofJson? (.object (before ++ p.members)) = some p := by
  simp [members, Procedure.ofJson?, Block.at?, Block.readOptional?_toJson, Block.ofJson?_toJson]

theorem Declaration.ofJson?_members (d : Declaration) (before : List (String × Json)) :
    Declaration.ofJson? (.object (before ++ d.members)) = some d := by
  refine d.read?_members _ before ?_
  simp only [Declaration.toJson, weight, membersWeight_append]
  omega

theorem Item.ofJson?_toJson (i : Item) : Item.ofJson? i.toJson = some i := by
  cases i with
  | procedure p =>
    have hp := p.ofJson?_members [("item", .string "procedure")]
    rw [Procedure.members, List.singleton_append] at hp
    simp [-nat, Item.toJson, Item.ofJson?, Procedure.members, hp]
  | declaration d =>
    have hd := d.ofJson?_members [("item", .string "declaration")]
    cases d <;>
      · rw [Declaration.members, List.singleton_append] at hd
        simp [-nat, Item.toJson, Item.ofJson?, Declaration.members, hd]

/-- A file is read from its JSON form. -/
theorem SourceFile.ofJson?_toJson (f : SourceFile) : SourceFile.ofJson? f.toJson = some f := by
  have hitems : (f.items.map Item.toJson).mapM Item.ofJson? = some f.items :=
    mapM_map_eq_some fun i _ => i.ofJson?_toJson
  simp only [SourceFile.ofJson?, SourceFile.toJson, itemsAt?, member?]
  simp [hitems]

/-! ## Texts -/

section Whole

attribute [local simp] Whole AllWhole MembersWhole

theorem Json.allWhole_map {α : Type} {g : α → Json} {as : List α} (h : ∀ a ∈ as, (g a).Whole) :
    AllWhole (as.map g) := by
  induction as with
  | nil => trivial
  | cons a as ih =>
    obtain ⟨ha, has⟩ := List.forall_mem_cons.1 h
    exact ⟨ha, ih has⟩

theorem Json.whole_strings (ss : List String) : (strings ss).Whole :=
  allWhole_map fun _ _ => trivial

theorem Path.whole_toJson (p : Path) : p.toJson.Whole :=
  Json.whole_strings p.segments

attribute [local simp] Path.whole_toJson

mutual

theorem Expr.whole_toJson : ∀ e : Expr, e.toJson.Whole
  | .name _ | .number _ | .measure _ _ | .string _ | .truth _ | .property _ => by
    simp [Expr.toJson]
  | .call _ as => by
    simp [Expr.toJson, Argument.allWhole_allToJson as]
  | .binary _ l r => by
    simp [Expr.toJson, Expr.whole_toJson l, Expr.whole_toJson r]
  | .unary _ e | .parens e => by
    simp [Expr.toJson, Expr.whole_toJson e]

theorem Argument.allWhole_allToJson : ∀ as : List Argument, AllWhole (Argument.allToJson as)
  | [] => trivial
  | .positional v :: as | .named _ v :: as => by
    simp [Argument.allToJson, Argument.toJson, Expr.whole_toJson v, Argument.allWhole_allToJson as]

end

attribute [local simp] Expr.whole_toJson Argument.allWhole_allToJson

mutual

theorem Statement.whole_toJson : ∀ s : Statement, s.toJson.Whole
  | .activity _ _ _ _ | .check _ _ | .wait _ _ | .assign _ _ _ | .expr _ _ => by
    simp [Statement.toJson]
  | .conditional branches none _ => by
    simp [Statement.toJson, Branch.allWhole_allToJson branches]
  | .conditional branches (some body) _ => by
    simp [Statement.toJson, blockJson, Branch.allWhole_allToJson branches,
      Statement.allWhole_allToJson body]
  | .whileLoop _ body _ | .forLoop _ _ body _ => by
    simp [Statement.toJson, blockJson, Statement.allWhole_allToJson body]

theorem Statement.allWhole_allToJson : ∀ ss : List Statement, AllWhole (Statement.allToJson ss)
  | [] => trivial
  | s :: ss => ⟨Statement.whole_toJson s, Statement.allWhole_allToJson ss⟩

theorem Branch.allWhole_allToJson : ∀ bs : List Branch, AllWhole (Branch.allToJson bs)
  | [] => trivial
  | .mk _ body :: bs => by
    simp [Branch.allToJson, blockJson, Statement.allWhole_allToJson body,
      Branch.allWhole_allToJson bs]

end

theorem Block.whole_toJson (b : Block) : b.toJson.Whole :=
  ⟨Statement.allWhole_allToJson b, trivial⟩

theorem Block.whole_optional (b : Option Block) : (optionalBlockJson b).Whole := by
  cases b with
  | none => trivial
  | some b => exact b.whole_toJson

mutual

theorem TypeExpr.whole_toJson : ∀ t : TypeExpr, t.toJson.Whole
  | .primitive _ | .named _ => by
    simp [TypeExpr.toJson]
  | .array element _ => by
    simp [TypeExpr.toJson, TypeExpr.whole_toJson element]
  | .struct fields => by
    simp [TypeExpr.toJson, Field.allWhole_allToJson fields]

theorem Field.allWhole_allToJson : ∀ fs : List Field, AllWhole (Field.allToJson fs)
  | [] => trivial
  | .mk _ t :: fs => by
    simp [Field.allToJson, TypeExpr.whole_toJson t, Field.allWhole_allToJson fs]

end

theorem TypeBody.whole_toJson (b : TypeBody) : b.toJson.Whole := by
  cases b <;> simp [TypeBody.toJson, TypeExpr.whole_toJson, Field.allWhole_allToJson]

mutual

theorem Declaration.whole_members : ∀ d : Declaration, MembersWhole d.members
  | .space _ children _ => by
    simp [Declaration.members, Declaration.allWhole_allToJson children]
  | .type _ body _ => by
    simp [Declaration.members, body.whole_toJson]

theorem Declaration.allWhole_allToJson :
    ∀ ds : List Declaration, AllWhole (Declaration.allToJson ds)
  | [] => trivial
  | d :: ds => ⟨Declaration.whole_members d, Declaration.allWhole_allToJson ds⟩

end

theorem Item.whole_toJson (i : Item) : i.toJson.Whole := by
  cases i <;>
    simp [Item.toJson, Procedure.members, Declaration.whole_members, Block.whole_toJson,
      Block.whole_optional]

theorem SourceFile.whole_toJson (f : SourceFile) : f.toJson.Whole :=
  ⟨Json.allWhole_map fun i _ => i.whole_toJson, trivial⟩

end Whole

theorem Json.ofText?_onLine {j : Json} (h : j.Whole) : ofText? (onLine j.pretty) = some j :=
  ofText?_pretty h.spelled (by simp [Blank, isSpace])

/-- The printed JSON form of a file is read as the file. -/
theorem SourceFile.ofText?_toJson (f : SourceFile) :
    (Json.ofText? (onLine f.toJson.pretty)).bind ofJson? = some f := by
  rw [ofText?_onLine f.whole_toJson]
  exact f.ofJson?_toJson

/-- Files whose printed JSON forms are equal are equal. -/
theorem SourceFile.toJson_pretty_inj {f g : SourceFile} :
    onLine f.toJson.pretty = onLine g.toJson.pretty ↔ f = g := by
  refine ⟨fun h => ?_, fun h => h ▸ rfl⟩
  have hread := f.ofText?_toJson
  rw [h, g.ofText?_toJson] at hread
  exact (Option.some.inj hread).symm

end OpsLang
