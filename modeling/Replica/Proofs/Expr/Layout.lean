import Replica.Proofs.Expr.Mention
import Replica.SourceFile
import Replica.Synthesis

/-!
Text depends on aliases only through the packages of the types that are mentioned.
-/

namespace Replica

def AliasesAgree (aliases others : String → String) (mentioned : QualName → Prop) : Prop :=
  ∀ q, mentioned q → aliases q.package = others q.package

variable {aliases others : String → String}

theorem AliasesAgree.imp {wide narrow : QualName → Prop} (agree : AliasesAgree aliases others wide)
    (within : ∀ q, narrow q → wide q) : AliasesAgree aliases others narrow :=
  fun q mentioned => agree q (within q mentioned)

theorem AliasesAgree.child {e inner : Expr} (agree : AliasesAgree aliases others e.Mentions)
    (child : inner ∈ e.children) : AliasesAgree aliases others inner.Mentions :=
  agree.imp fun _ => .inside child

theorem AliasesAgree.member {es : List Expr} {e : Expr}
    (agree : AliasesAgree aliases others (MentionedIn es)) (member : e ∈ es) :
    AliasesAgree aliases others e.Mentions :=
  agree.imp fun _ mentions => ⟨e, member, mentions⟩

theorem AliasesAgree.sublist {es fs : List Expr}
    (agree : AliasesAgree aliases others (MentionedIn fs)) (within : ∀ e ∈ es, e ∈ fs) :
    AliasesAgree aliases others (MentionedIn es) :=
  agree.imp fun _ ⟨e, member, mentions⟩ => ⟨e, within e member, mentions⟩

theorem AliasesAgree.children {e : Expr} (agree : AliasesAgree aliases others e.Mentions) :
    AliasesAgree aliases others (MentionedIn e.children) :=
  agree.imp fun _ ⟨_, member, mentions⟩ => .inside member mentions

namespace Expr

mutual

theorem layout_congr : ∀ (e : Expr) (depth : Nat), AliasesAgree aliases others e.Mentions →
    e.layout aliases depth = e.layout others depth
  | .ident _, _, _ => rfl
  | .qualified q, _, agree => by
      rw [layout, layout, agree q .here]
  | .applied base args, depth, agree => by
      rw [layout, layout, layout_congr base depth (agree.child List.mem_cons_self),
        layouts_congr args depth (agree.children.sublist fun _ => List.mem_cons_of_mem _)]
  | .pointer elem, depth, agree => by
      rw [layout, layout, layout_congr elem depth (agree.child List.mem_cons_self)]
  | .map key value, depth, agree => by
      rw [layout, layout, layout_congr key depth (agree.child List.mem_cons_self),
        layout_congr value depth (agree.child (List.mem_cons_of_mem _ List.mem_cons_self))]
  | .array len elem, depth, agree => by
      rw [layout, layout, layout_congr elem depth (agree.child List.mem_cons_self)]
  | .slice elem, depth, agree => by
      rw [layout, layout, layout_congr elem depth (agree.child List.mem_cons_self)]
  | .struct members, depth, agree => by
      rw [layout, layout, rows_congr members (depth + 1) agree.children]
  | .func signature, depth, agree => by
      rw [layout, layout, signatureLayout_congr signature depth agree.children]
  | .interface elements, depth, agree => by
      rw [layout, layout, elementLines_congr elements (depth + 1) agree.children]

theorem layouts_congr : ∀ (es : List Expr) (depth : Nat),
    AliasesAgree aliases others (MentionedIn es) →
    layouts aliases depth es = layouts others depth es
  | [], _, _ => rfl
  | e :: es, depth, agree => by
      rw [layouts, layouts, layout_congr e depth (agree.member List.mem_cons_self),
        layouts_congr es depth (agree.sublist fun _ => List.mem_cons_of_mem _)]

theorem rows_congr : ∀ (members : List (Member Expr)) (depth : Nat),
    AliasesAgree aliases others (MentionedIn (members.map (·.type))) →
    rows aliases depth members = rows others depth members
  | [], _, _ => rfl
  | ⟨_, type, _⟩ :: members, depth, agree => by
      rw [rows, rows, layout_congr type depth (agree.member List.mem_cons_self),
        rows_congr members depth (agree.sublist fun _ => List.mem_cons_of_mem _)]

theorem paramLayouts_congr : ∀ (params : List (Field Expr)) (depth : Nat) (variadic : Bool),
    AliasesAgree aliases others (MentionedIn (params.map (·.type))) →
    paramLayouts aliases depth variadic params = paramLayouts others depth variadic params
  | [], _, _, _ => rfl
  | ⟨_, type⟩ :: params, depth, variadic, agree => by
      have head := layout_congr type depth (agree.member List.mem_cons_self)
      have tail := paramLayouts_congr params depth variadic
        (agree.sublist fun _ => List.mem_cons_of_mem _)
      cases type with
      | slice elem =>
          have inner : elem.layout aliases depth = elem.layout others depth := by
            simpa only [layout, String.append_right_inj] using head
          simp only [paramLayouts]
          rw [inner, tail]
      | _ =>
          simp only [paramLayouts]
          rw [head, tail]

theorem signatureLayout_congr : ∀ (s : Signature Expr) (depth : Nat),
    AliasesAgree aliases others (MentionedIn s.types) →
    signatureLayout aliases depth s = signatureLayout others depth s
  | ⟨params, results, variadic⟩, depth, agree => by
      have first := paramLayouts_congr params depth variadic
        (agree.sublist fun _ => List.mem_append_left _)
      have second := paramLayouts_congr results depth false
        (agree.sublist fun _ => List.mem_append_right _)
      rw [signatureLayout, signatureLayout, first, second]

theorem elementLines_congr : ∀ (elements : List (Element Expr)) (depth : Nat),
    AliasesAgree aliases others (MentionedIn (elements.flatMap Element.types)) →
    elementLines aliases depth elements = elementLines others depth elements
  | [], _, _ => rfl
  | .embedded type :: elements, depth, agree => by
      rw [elementLines, elementLines, layout_congr type depth (agree.member List.mem_cons_self),
        elementLines_congr elements depth (agree.sublist fun _ => List.mem_cons_of_mem _)]
  | .method _ s :: elements, depth, agree => by
      rw [elementLines, elementLines,
        signatureLayout_congr s depth (agree.sublist fun _ => List.mem_append_left _),
        elementLines_congr elements depth (agree.sublist fun _ => List.mem_append_right _)]

end

end Expr

theorem paramsText_congr {params : List (Field Expr)}
    (agree : AliasesAgree aliases others (MentionedIn (params.map (·.type)))) :
    paramsText aliases params = paramsText others params := by
  have texts : params.map (fun param => param.name ++ " " ++ param.type.layout aliases 0) =
      params.map (fun param => param.name ++ " " ++ param.type.layout others 0) := by
    refine List.map_congr_left fun param member => ?_
    rw [Expr.layout_congr param.type 0 (agree.member (List.mem_map.mpr ⟨param, member, rfl⟩))]
  cases params with
  | nil => rfl
  | cons param rest =>
      simp only [paramsText]
      rw [texts]

theorem Body.layout_congr {body : Body}
    (agree : AliasesAgree aliases others (MentionedIn body.exprs)) :
    body.layout aliases = body.layout others := by
  cases body with
  | struct members =>
      rw [layout, layout, Expr.layout, Expr.layout, Expr.rows_congr members _ agree]
  | interface elements =>
      rw [layout, layout, Expr.layout, Expr.layout, Expr.elementLines_congr elements _ agree]
  | defined type => exact Expr.layout_congr type 0 (agree.member (List.mem_singleton_self _))

theorem Decl.layout_congr {decl : Decl}
    (agree : AliasesAgree aliases others (MentionedIn decl.exprs)) :
    decl.layout aliases = decl.layout others := by
  rw [layout, layout, paramsText_congr (agree.sublist fun _ => List.mem_append_left _),
    Body.layout_congr (agree.sublist fun _ => List.mem_append_right _)]

theorem Conversion.layout_congr {c : Conversion}
    (agree : AliasesAgree aliases others (MentionedIn c.exprs))
    (pointers : aliases unsafePackage = others unsafePackage) :
    c.layout aliases = c.layout others := by
  have source := Expr.layout_congr c.source 0
    (agree.member (List.mem_append_right _ List.mem_cons_self))
  have target := Expr.layout_congr c.target 0
    (agree.member (List.mem_append_right _ (List.mem_cons_of_mem _ List.mem_cons_self)))
  have params := paramsText_congr (agree.sublist fun _ => List.mem_append_left _)
  rw [unsafePackage] at pointers
  unfold layout
  rw [source, target, params, pointers]

theorem Stub.layout_congr {stub : Stub}
    (agree : AliasesAgree aliases others (MentionedIn stub.exprs)) :
    stub.layout aliases = stub.layout others := by
  unfold layout
  rw [Expr.signatureLayout_congr stub.signature 0 agree]

/-- The text of a tree depends on aliases only through what the tree mentions and the package that
conversions go through. -/
theorem Tree.blocks_congr {tree : Tree} (agree : AliasesAgree aliases others tree.Mentions)
    (pointers : aliases unsafePackage = others unsafePackage) :
    tree.blocks aliases = tree.blocks others := by
  have all : AliasesAgree aliases others (MentionedIn tree.exprs) := agree
  have decls : tree.decls.map (·.layout aliases) = tree.decls.map (·.layout others) := by
    refine List.map_congr_left fun decl member => Decl.layout_congr (all.sublist fun e inside => ?_)
    exact List.mem_append_left _ (List.mem_append_left _ (List.mem_flatMap.mpr ⟨decl, member, inside⟩))
  have conversions : tree.conversions.map (·.layout aliases) =
      tree.conversions.map (·.layout others) := by
    refine List.map_congr_left fun c member =>
      Conversion.layout_congr (all.sublist fun e inside => ?_) pointers
    exact List.mem_append_left _ (List.mem_append_right _ (List.mem_flatMap.mpr ⟨c, member, inside⟩))
  have stubs : tree.stubs.map (·.layout aliases) = tree.stubs.map (·.layout others) := by
    refine List.map_congr_left fun stub member => Stub.layout_congr (all.sublist fun e inside => ?_)
    exact List.mem_append_right _ (List.mem_flatMap.mpr ⟨stub, member, inside⟩)
  rw [blocks, blocks, decls, conversions, stubs]

end Replica
