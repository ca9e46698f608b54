import Parlance.Analysis.Checker

/-!
# Names in a tree

What a tree says about names and slots, without its operators and types: where names are used,
where variables are declared, and which blocks and functions are around them. These are the
items of the tree, in the order of the text.

The lexical rules of the language are stated on items. A scope declares the functions of its
statements from its start, its parameters, and each variable from the end of its declaration
on. A name means what the innermost scope that declares it says.

## Main definitions

* `Block.items`: the items of a tree.
* `Item.made`: the functions in items, with what is inside them.
* `Item.symbols`: the symbols of the declarations in items.
* `Item.views`: which variables of a function are visible at the points of its body.
* `Item.uses`: the uses of names, with the scopes and the functions around them.
* `resolveIn`: the declaration that a name refers to.
-/

namespace Parlance

/-- What matters to names and slots. -/
inductive Item where
  /-- A use of a name, with the symbol that is noted for it. -/
  | use (symbol : Option Nat) (name : String)
  /-- A variable, which is declared from here on. -/
  | variable (symbol : Option Nat) (name : String)
  | block (body : List Item)
  /-- A function with its number, the names of its parameters and what is inside it. If it has
  a declaration, that has a name and a symbol. -/
  | function (number : Option Nat) (declaration : Option (String × Nat)) (params : List String)
      (body : List Item)

/-! ### Items of trees -/

/-- The names of the parameters. -/
def Signature.names (s : Signature) : List String :=
  s.params.map (·.name)

mutual

/-- The items of an expression. A target that can not be assigned to counts as a name that is
not resolved. -/
def Expr.items : Expr → List Item
  | .lit _ _ => []
  | .ident n name => [.use n.symbol name]
  | .unary _ _ e | .cast _ e _ => e.items
  | .binary _ _ a b | .index _ a b => a.items ++ b.items
  | .assign _ (.ident n name) v => .use n.symbol name :: v.items
  | .assign _ (.index _ (.ident n name) i) v => .use n.symbol name :: (i.items ++ v.items)
  | .assign _ _ v => .use none "" :: v.items
  | .call _ f args => f.items ++ Expr.itemsOf args
  | .list _ es => Expr.itemsOf es
  | .lambda n s b => [.function n.function none s.names b.items]

def Expr.itemsOf : List Expr → List Item
  | [] => []
  | e :: es => e.items ++ Expr.itemsOf es

/-- The items of a statement. -/
def Stmt.items : Stmt → List Item
  | .block b | .loop _ b => [.block b.items]
  | .letVar n name _ e => e.items ++ [.variable n.symbol name]
  | .fnDecl n name s b =>
    [.function n.function (n.symbol.map fun y => (name, y)) s.names b.items]
  | .expr _ e | .ret _ (some e) => e.items
  | .ret _ none | .breakLoop _ | .continueLoop _ => []
  | .cond _ test yes none => test.items ++ [.block yes.items]
  | .cond _ test yes (some no) => test.items ++ (.block yes.items :: no.items)
  | .whileLoop _ test b => test.items ++ [.block b.items]

def Stmt.itemsOf : List Stmt → List Item
  | [] => []
  | s :: ss => s.items ++ Stmt.itemsOf ss

/-- The items of a block. -/
def Block.items : Block → List Item
  | .mk _ ss none => Stmt.itemsOf ss
  | .mk _ ss (some e) => Stmt.itemsOf ss ++ e.items

end

namespace Item

/-! ### Functions -/

/-- A function with the names of its parameters and what is inside it. -/
structure Made where
  number : Nat
  params : List String
  body : List Item

mutual

/-- The functions in an item, also those inside other functions. -/
def made : Item → List Made
  | .use _ _ | .variable _ _ => []
  | .block body => madeOf body
  | .function f _ params body =>
    (f.map fun number => ⟨number, params, body⟩).toList ++ madeOf body

/-- The functions in items. -/
def madeOf : List Item → List Made
  | [] => []
  | i :: is => i.made ++ madeOf is

end

/-- The functions in items are those of both halves. -/
theorem madeOf_append (is js : List Item) : madeOf (is ++ js) = madeOf is ++ madeOf js := by
  induction is with
  | nil => rfl
  | cons i is ih => rw [List.cons_append, madeOf, madeOf, ih, List.append_assoc]

/-! ### Declarations -/

mutual

/-- The symbols that an item declares, also those inside it. -/
def symbols (F : Facts) : Item → List Nat
  | .use _ _ => []
  | .variable y _ => y.toList
  | .block body => symbolsOf F body
  | .function f d _ body =>
    (d.map (·.2)).toList ++ (f.elim [] (fun f => (F.info f).params) ++ symbolsOf F body)

/-- The symbols that items declare. -/
def symbolsOf (F : Facts) : List Item → List Nat
  | [] => []
  | i :: is => i.symbols F ++ symbolsOf F is

end

/-! ### Points -/

/-- The variables that are declared after an item, if those in `live` were before it. -/
def after (live : List Nat) : Item → List Nat
  | .variable (some y) _ => y :: live
  | _ => live

mutual

/-- The variables that are visible at the points inside an item, but not inside functions in
it. -/
def views (live : List Nat) : Item → List (List Nat)
  | .block body => viewsOf live body
  | _ => []

/-- The variables that are visible at the points of items: in front of each item, inside it,
and at the end. -/
def viewsOf (live : List Nat) : List Item → List (List Nat)
  | [] => [live]
  | i :: is => live :: (i.views live ++ viewsOf (i.after live) is)

end

/-- The variables that are declared after some items. -/
def afterAll (live : List Nat) (is : List Item) : List Nat :=
  is.foldl after live

end Item

/-! ### Scopes -/

/-- What a scope declares. -/
abbrev Bindings := List (String × Nat)

/-- The scope of the builtins. -/
def builtinScope : Bindings :=
  Builtin.all.zipIdx.map fun b => (b.1.name, b.2)

/-- The declaration that a name refers to: the one in the first scope that declares it. -/
def resolveIn (scopes : List Bindings) (name : String) : Option Nat :=
  scopes.findSome? fun scope => scope.lookup name

namespace Item

/-- What a function declaration declares, from the start of its scope on. -/
def declaration? : Item → Option (String × Nat)
  | .function _ d _ _ => d
  | _ => none

/-- The functions that items declare. -/
def declarations (is : List Item) : Bindings :=
  is.filterMap declaration?

/-- What a scope declares after an item, if it declared `here` before it. -/
def bind (here : Bindings) : Item → Bindings
  | .variable (some y) name => here ++ [(name, y)]
  | _ => here

/-- What a scope declares after some items. -/
def bindAll (here : Bindings) (is : List Item) : Bindings :=
  is.foldl bind here

end Item

/-- A use of a name. -/
structure Use where
  name : String
  /-- The symbol that is noted for it. -/
  symbol : Option Nat
  /-- What the scopes around it declare at this place, the innermost first. -/
  scopes : List Bindings
  /-- The functions around it, the innermost first. -/
  within : List Nat

namespace Item

/-- The parameters of a function. -/
def paramsOf (F : Facts) (number : Option Nat) (names : List String) : Bindings :=
  names.zip (number.elim [] fun f => (F.info f).params)

mutual

/-- The uses of names in an item, inside the functions `within` and the scopes `scopes`. -/
def uses (F : Facts) (within : List Nat) (scopes : List Bindings) : Item → List Use
  | .use symbol name => [{ name, symbol, scopes, within }]
  | .variable _ _ => []
  | .block body => usesOf F within (declarations body) scopes body
  | .function f _ params body =>
    usesOf F (f.toList ++ within) (paramsOf F f params ++ declarations body) scopes body

/-- The uses of names in items in a scope that declares `here` so far. -/
def usesOf (F : Facts) (within : List Nat) (here : Bindings) (scopes : List Bindings) :
    List Item → List Use
  | [] => []
  | i :: is => i.uses F within (here :: scopes) ++ usesOf F within (i.bind here) scopes is

end

/-- What is declared after items in a row is declared by the second ones, starting from what the
first ones declare. -/
theorem afterAll_append (live : List Nat) (is js : List Item) :
    afterAll live (is ++ js) = afterAll (afterAll live is) js :=
  List.foldl_append

/-- The start of items is one of their points. -/
theorem mem_viewsOf_self (live : List Nat) (is : List Item) : live ∈ viewsOf live is := by
  cases is with
  | nil => exact List.mem_cons_self
  | cons i is => exact List.mem_cons_self

/-- The points of items in a row are those of the first ones, and of the second ones behind them. -/
theorem mem_viewsOf_append {live view : List Nat} {is js : List Item} :
    view ∈ viewsOf live (is ++ js) ↔
      view ∈ viewsOf live is ∨ view ∈ viewsOf (afterAll live is) js := by
  induction is generalizing live with
  | nil =>
      refine ⟨.inr, fun h => h.elim (fun h => ?_) id⟩
      rw [List.mem_singleton.mp h]
      exact mem_viewsOf_self live js
  | cons i is ih =>
      rw [List.cons_append, viewsOf, List.mem_cons, List.mem_append, ih, viewsOf, List.mem_cons,
        List.mem_append, or_assoc, or_assoc]
      rfl

/-- Variables that were declared before stay visible behind an item. -/
theorem after_append_live (l live : List Nat) (i : Item) :
    i.after (l ++ live) = i.after l ++ live := by
  cases i with
  | «variable» symbol name =>
      cases symbol with
      | none => rfl
      | some y => rfl
  | _ => rfl

mutual

/-- Variables that were there before are visible everywhere. -/
theorem views_append_live (l live : List Nat) : ∀ i : Item,
    i.views (l ++ live) = (i.views l).map (· ++ live)
  | .use _ _ | .variable _ _ | .function _ _ _ _ => rfl
  | .block body => viewsOf_append_live l live body

/-- Variables that were declared before are visible at all points of items. -/
theorem viewsOf_append_live (l live : List Nat) : ∀ is : List Item,
    viewsOf (l ++ live) is = (viewsOf l is).map (· ++ live)
  | [] => rfl
  | i :: is => by
      rw [viewsOf, viewsOf, views_append_live l live i, after_append_live,
        viewsOf_append_live _ live is, List.map_cons, List.map_append]

end

/-- A variable is visible at a point of items, if those in `live` are at the start. -/
def Seen (live : List Nat) (is : List Item) (y : Nat) : Prop :=
  ∃ view ∈ viewsOf live is, y ∈ view

section Seen

variable {live : List Nat} {is : List Item} {y : Nat}

/-- Variables that were declared before are visible. -/
theorem seen_of_mem (is : List Item) (hy : y ∈ live) : Seen live is y :=
  ⟨live, mem_viewsOf_self live is, hy⟩

/-- A variable that is visible stays so if more were declared before. -/
theorem Seen.later (h : Seen [] is y) (live : List Nat) : Seen live is y := by
  obtain ⟨view, hv, hy⟩ := h
  refine ⟨view ++ live, ?_, List.mem_append_left _ hy⟩
  rw [← List.nil_append live, viewsOf_append_live]
  exact List.mem_map_of_mem hv

/-- A variable that is visible in items is visible in more items. -/
theorem Seen.append_left (h : Seen live is y) (js : List Item) : Seen live (is ++ js) y := by
  obtain ⟨view, hv, hy⟩ := h
  exact ⟨view, mem_viewsOf_append.mpr (.inl hv), hy⟩

/-- A variable that is visible in the last items is visible in all. -/
theorem Seen.append_right {js : List Item} (h : Seen [] js y) (live : List Nat)
    (is : List Item) : Seen live (is ++ js) y := by
  obtain ⟨view, hv, hy⟩ := h.later (afterAll live is)
  exact ⟨view, mem_viewsOf_append.mpr (.inr hv), hy⟩

end Seen

mutual

/-- The uses depend on the parameters of the functions inside the item only. -/
theorem uses_congr {F F' : Facts} : ∀ (i : Item) (within : List Nat) (scopes : List Bindings),
    (∀ m ∈ i.made, (F'.info m.number).params = (F.info m.number).params) →
    i.uses F' within scopes = i.uses F within scopes
  | .use _ _, _, _, _ | .variable _ _, _, _, _ => rfl
  | .block body, _, _, h => usesOf_congr body _ _ _ h
  | .function none _ _ body, _, _, h => usesOf_congr body _ _ _ h
  | .function (some f) _ params body, within, scopes, h => by
      have hf : (F'.info f).params = (F.info f).params := h ⟨f, params, body⟩ List.mem_cons_self
      rw [uses, uses, usesOf_congr body _ _ _ fun m hm => h m (List.mem_cons_of_mem _ hm), paramsOf,
        Option.elim_some, hf]
      rfl

/-- The uses of names depend only on the parameters of the functions in the items. -/
theorem usesOf_congr {F F' : Facts} : ∀ (is : List Item) (within : List Nat) (here : Bindings)
    (scopes : List Bindings),
    (∀ m ∈ madeOf is, (F'.info m.number).params = (F.info m.number).params) →
    usesOf F' within here scopes is = usesOf F within here scopes is
  | [], _, _, _, _ => rfl
  | i :: is, _, _, _, h => by
      rw [usesOf, usesOf, uses_congr i _ _ fun m hm => h m (List.mem_append_left _ hm),
        usesOf_congr is _ _ _ fun m hm => h m (List.mem_append_right _ hm)]

end

end Item

/-- The uses of names in an analyzed program. -/
def Analyzed.uses (a : Analyzed) : List Use :=
  Item.usesOf a.facts [0] (Item.declarations a.program.root.items) [builtinScope] a.program.root.items

end Parlance
