import Mathlib.Data.List.Forall2
import OpsLang.Proofs.Canonical.Expr

/-!
# Walks through a file

A `Node` is a part of a file that knows its line : a procedure, a declaration or a statement. The
walk from a node (`Node.walk`) comes to the node first and then walks from each of its children, in
the order in which they stand in the tree; the bodies of branches, loops and sections belong to the
children. `SourceFile.walk` goes through all items.

The walk from any node that is come to is a stretch of the whole walk (`Node.walk_sublist`). So what
holds between a node and all that is come to after it holds between parents and children.
-/

namespace OpsLang

/-- A part of a file that knows its line. -/
inductive Node where
  | procedure (p : Procedure)
  | declaration (d : Declaration)
  | statement (st : Statement)

namespace Node

/-- The line of a node. -/
def line : Node → Nat
  | procedure p => p.line
  | declaration d => d.line
  | statement st => st.line

/-- The nodes right below a node, in order. -/
def children : Node → List Node
  | procedure p =>
    (p.preconditions.getD [] ++ (p.main ++ p.confirmation.getD [])).map statement
  | declaration (.space _ ds _) => ds.map declaration
  | declaration (.type ..) => []
  | statement (.conditional branches otherwise _) =>
    (branches.flatMap Branch.body ++ otherwise.getD []).map statement
  | statement (.whileLoop _ body _) | statement (.forLoop _ _ body _) => body.map statement
  | statement _ => []

/-- The token is one that the node may begin with. -/
def BeginsWith : Node → Token → Prop
  | procedure _, t => t = .keyword .procedure
  | declaration (.space ..), t => t = .keyword .namespace_
  | declaration (.type ..), t => t = .keyword .type
  | statement (.activity .confirm ..), t | statement (.check ..), t => t = .keyword .confirm
  | statement (.activity ..), t => t = .keyword .initiate
  | statement (.wait ..), t => t = .keyword .wait
  | statement (.assign n ..), t => t = .name n
  | statement (.conditional ..), t => t = .keyword .if_
  | statement (.whileLoop ..), t => t = .keyword .while_
  | statement (.forLoop ..), t => t = .keyword .for_
  | statement (.expr ..), t => t.beginsExpr = true

/-- The node has the line of the token and may begin with it. -/
structure StandsAt (n : Node) (u : Located) : Prop where
  line : n.line = u.line
  begins : n.BeginsWith u.token

theorem sizeOf_lt_of_mem_children {n m : Node} (h : m ∈ n.children) : sizeOf m < sizeOf n := by
  have hmem : ∀ {b : Block} {st}, st ∈ b → sizeOf st < sizeOf b := List.sizeOf_lt_of_mem
  have hgetD : ∀ {b : Option Block} {st}, st ∈ b.getD [] → sizeOf st < sizeOf b := by
    intro b st hst
    cases b with
    | none => exact absurd hst List.not_mem_nil
    | some b =>
      have hlt : sizeOf st < sizeOf b := hmem hst
      simp only [Option.some.sizeOf_spec]
      omega
  unfold children at h
  split at h
  · next p =>
    obtain ⟨st, hst, rfl⟩ := List.mem_map.1 h
    obtain ⟨name, pre, main, conf, line⟩ := p
    simp only [List.mem_append] at hst
    simp only [procedure.sizeOf_spec, statement.sizeOf_spec, Procedure.mk.sizeOf_spec]
    obtain hst | hst | hst := hst
    · have := hgetD hst
      omega
    · have := hmem hst
      omega
    · have := hgetD hst
      omega
  · next p ds line =>
    obtain ⟨d, hd, rfl⟩ := List.mem_map.1 h
    have hlt := List.sizeOf_lt_of_mem hd
    simp only [declaration.sizeOf_spec, Declaration.space.sizeOf_spec]
    omega
  · exact absurd h List.not_mem_nil
  · next branches rest line =>
    obtain ⟨st, hst, rfl⟩ := List.mem_map.1 h
    simp only [statement.sizeOf_spec, Statement.conditional.sizeOf_spec]
    obtain hst | hst := List.mem_append.1 hst
    · obtain ⟨⟨c, body⟩, hb, hst⟩ := List.mem_flatMap.1 hst
      have hbranch := List.sizeOf_lt_of_mem hb
      have hbody : sizeOf st < sizeOf body := hmem hst
      simp only [Branch.mk.sizeOf_spec] at hbranch
      omega
    · have := hgetD hst
      omega
  · next c body line =>
    obtain ⟨st, hst, rfl⟩ := List.mem_map.1 h
    have hlt := hmem hst
    simp only [statement.sizeOf_spec, Statement.whileLoop.sizeOf_spec]
    omega
  · next c e body line =>
    obtain ⟨st, hst, rfl⟩ := List.mem_map.1 h
    have hlt := hmem hst
    simp only [statement.sizeOf_spec, Statement.forLoop.sizeOf_spec]
    omega
  · exact absurd h List.not_mem_nil

/-- The node and all below it, each before its children and these in order. -/
def walk (n : Node) : List Node :=
  n :: n.children.attach.flatMap fun m => m.1.walk
termination_by n
decreasing_by exact sizeOf_lt_of_mem_children m.2

theorem walk_eq (n : Node) : n.walk = n :: n.children.flatMap walk := by
  rw [walk]
  simp

/-- The walk from a node that is come to is a stretch of the walk. -/
theorem walk_sublist {n m : Node} (h : m ∈ n.walk) : m.walk.Sublist n.walk := by
  rw [walk_eq] at h
  obtain rfl | h := List.mem_cons.1 h
  · exact .refl _
  · obtain ⟨c, hc, hm⟩ := List.mem_flatMap.1 h
    have hchild : c.walk.Sublist (n.children.flatMap walk) :=
      List.sublist_flatten_of_mem (List.mem_map_of_mem hc)
    rw [walk_eq n]
    exact .cons n ((walk_sublist hm).trans hchild)
termination_by n
decreasing_by exact sizeOf_lt_of_mem_children hc

end Node

/-- The items are nodes. -/
def Item.node : Item → Node
  | .procedure p => .procedure p
  | .declaration d => .declaration d

/-- The walks from the items. -/
def Item.walks (is : List Item) : List Node :=
  is.flatMap fun i => i.node.walk

/-- All nodes of a file in the order of the source. -/
def SourceFile.walk (f : SourceFile) : List Node :=
  Item.walks f.items

theorem SourceFile.walk_sublist {f : SourceFile} {n : Node} (h : n ∈ f.walk) :
    n.walk.Sublist f.walk := by
  obtain ⟨i, hi, hn⟩ := List.mem_flatMap.1 h
  exact (Node.walk_sublist hn).trans (List.sublist_flatten_of_mem (List.mem_map_of_mem hi))

/-! ## Lines of a walk -/

/-- The nodes stand at tokens of the row, one behind another. -/
def StandIn (ns : List Node) (ts : List Located) : Prop :=
  List.SublistForall₂ Node.StandsAt ns ts

/-- The lines of a file are those of its tokens : its nodes stand at tokens of the row, their lines
never decrease on the walk through the file, and no child has a lesser line than its parent. -/
structure SourceFile.Traced (f : SourceFile) (ts : List Located) : Prop where
  stands : StandIn f.walk ts
  lines : f.walk.Pairwise fun n m => n.line ≤ m.line
  parents : ∀ n ∈ f.walk, ∀ m ∈ n.children, n.line ≤ m.line

section Lines

variable {ns ms : List Node} {ts us : List Located}

theorem StandIn.nil (ts : List Located) : StandIn [] ts :=
  List.SublistForall₂.nil

theorem StandIn.cons {n : Node} {u : Located} (h : n.StandsAt u) (hs : StandIn ns ts) :
    StandIn (n :: ns) (u :: ts) :=
  List.SublistForall₂.cons h hs

theorem StandIn.append (h : StandIn ns ts) (h' : StandIn ms us) :
    StandIn (ns ++ ms) (ts ++ us) := by
  obtain ⟨vs, hvs, hsub⟩ := List.sublistForall₂_iff.1 h
  obtain ⟨vs', hvs', hsub'⟩ := List.sublistForall₂_iff.1 h'
  exact List.sublistForall₂_iff.2 ⟨vs ++ vs', List.rel_append hvs hvs', hsub.append hsub'⟩

/-- Nodes that stand at tokens one behind another have lines that do not decrease, if those of the
tokens do not. -/
theorem StandIn.pairwise_line (h : StandIn ns ts)
    (hts : ts.Pairwise fun t u => t.line ≤ u.line) :
    ns.Pairwise fun n m => n.line ≤ m.line := by
  obtain ⟨vs, hvs, hsub⟩ := List.sublistForall₂_iff.1 h
  have hlines : ns.map Node.line = vs.map Located.line := by
    clear h hsub
    induction hvs with
    | nil => rfl
    | cons hstands _ ih => exact congrArg₂ List.cons hstands.line ih
  have hsorted : (vs.map Located.line).Pairwise (· ≤ ·) := List.pairwise_map.2 (hts.sublist hsub)
  rw [← hlines] at hsorted
  exact List.pairwise_map.1 hsorted

/-- The parts of `Traced` that tell of lines follow from where the nodes stand. -/
theorem SourceFile.Traced.of_standIn {f : SourceFile} (h : StandIn f.walk ts)
    (hts : ts.Pairwise fun t u => t.line ≤ u.line) : f.Traced ts := by
  have hlines := h.pairwise_line hts
  refine ⟨h, hlines, fun n hn m hm => ?_⟩
  have hwalk := hlines.sublist (f.walk_sublist hn)
  rw [n.walk_eq, List.pairwise_cons] at hwalk
  exact hwalk.1 m (List.mem_flatMap.2 ⟨m, hm, by rw [m.walk_eq]; exact List.mem_cons_self⟩)

end Lines

end OpsLang
