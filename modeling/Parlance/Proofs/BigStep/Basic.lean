import Mathlib.Logic.Function.Basic
import Parlance.Code.Generator
import Parlance.Machine.Basic
import Parlance.Proofs.Analysis.Judgements
import Parlance.Value.Ops

/-!
# Big-step evaluation of program trees

The meaning of an analyzed program, read off its tree alone: no code, no operand stack and no
frame stack. Evaluation is a relation between a store and a result. It is given by recursion
on the tree, and written in a monad (`Eval`) whose effects are the store, faults and running
out of fuel.

Fuel bounds the rounds of each loop and the depth of calls, and nothing else. `timeout` is the
result of an evaluation that needs more; a program evaluates to a value or to a fault if it
does so with some fuel.

The relation leaves one thing open: the identity of a new function value may be any number
that was not given out before. Nothing that a program prints depends on the choice.

## Main definitions

* `BigStep.expr`, `BigStep.stmt`, `BigStep.block`: the evaluation of the parts of a tree.
* `BigStep.invoke`: the evaluation of a call of a function of the program.
* `Analyzed.Evaluates`: the evaluation of a whole program.

## Main results

* `BigStep.invoke_total`: every evaluation has a result, possibly `timeout`.
-/

namespace Parlance

namespace BigStep

/-! ### Stores and results -/

/-- What evaluation reads and writes. -/
structure Store where
  /-- The slots of the running function. -/
  slots : Nat → Value
  /-- The variables of the program. -/
  globals : Nat → Value
  output : Output
  /-- Identities of function values below this one are given out. -/
  fresh : Nat

/-- The way an evaluation ends. -/
inductive Result (α : Type) where
  | ok (a : α) (s : Store)
  /-- A fault, with all that was printed before it. -/
  | fault (k : Fault) (o : Output)
  /-- There was not enough fuel, after all that was printed. -/
  | timeout (o : Output)

/-- An evaluation relates a store to the results it may have there. -/
def Eval (α : Type) : Type :=
  Store → Result α → Prop

namespace Eval

variable {α β : Type}

/-- The results of an evaluation that goes on with `f` after the result `q`. -/
def andThen (q : Result α) (f : α → Eval β) (r : Result β) : Prop :=
  match q with
  | .ok a s => f a s r
  | .fault k o => r = .fault k o
  | .timeout o => r = .timeout o

instance : Monad Eval where
  pure a := fun s r => r = .ok a s
  bind m f := fun s r => ∃ q, m s q ∧ andThen q f r

/-- Faults. -/
def fail (k : Fault) : Eval α :=
  fun s r => r = .fault k s.output

/-- Runs out of fuel. -/
def timeout : Eval α :=
  fun s r => r = .timeout s.output

/-- The current store. -/
def store : Eval Store :=
  fun s r => r = .ok s s

/-- Changes the store. -/
def update (f : Store → Store) : Eval Unit :=
  fun s r => r = .ok () (f s)

/-- Any value at all. -/
def anything : Eval Value :=
  fun s r => ∃ v, r = .ok v s

/-- The result of an operation on values. -/
def lift : Except Fault α → Eval α
  | .ok a => pure a
  | .error k => fail k

/-- An identity that no function value has. -/
def identity : Eval Nat :=
  fun s r => ∃ t, s.fresh ≤ t ∧ r = .ok t { s with fresh := t + 1 }

/-- Evaluates in slots of its own. The slots from before are there again afterwards. -/
def within (slots : Nat → Value) (m : Eval α) : Eval α := do
  let outer := (← store).slots
  update fun s => { s with slots }
  let a ← m
  update fun s => { s with slots := outer }
  return a

end Eval

/-! ### Activations -/

/-- What a running function knows. -/
structure Activation where
  facts : Facts
  inputs : List String
  /-- The most calls at a time. -/
  maxDepth : Nat
  /-- The function that runs. -/
  function : Nat
  /-- The values it captured. -/
  captures : List Value
  /-- The number of calls that have not returned, this one included. -/
  depth : Nat
  /-- The most rounds of a loop. -/
  fuel : Nat
  /-- Calls a function with these captures and arguments. -/
  call : Nat → List Value → List Value → Eval Value

open Eval

/-! ### Variables -/

/-- The value that the running function captured at an index. -/
def captured (x : Activation) (index : Nat) : Eval Value :=
  match x.captures[index]? with
  | some v => return v
  | none => fail .danglingReference

/-- Reads a variable from the slots of the function that declares it, or from the captures of
the running function. -/
def readVariable (x : Activation) (symbol slot owner : Nat) : Eval Value := do
  if owner = x.function then return (← store).slots slot
  else
    match (x.facts.captures x.function).idxOf? symbol with
    | some index => captured x index
    | none => fail .danglingReference

/-- The function without captures. All its values are the same. -/
def constant (f : Nat) : Value :=
  .function f f []

/-- Reads the symbol of a node. Nothing is known about a name that was not resolved. -/
def read (x : Activation) (n : Note) : Eval Value := do
  match n.symbol with
  | none => anything
  | some symbol =>
    match (x.facts.symbol symbol).storage with
    | .global slot => return (← store).globals slot
    | .frame slot => readVariable x symbol slot (x.facts.symbol symbol).function
    | .function f => return constant f
    | .builtin b => return .builtin b

/-- Writes the symbol of a node. -/
def write (x : Activation) (n : Note) (v : Value) : Eval Unit :=
  match n.symbol with
  | none => fail .danglingReference
  | some symbol =>
    match (x.facts.symbol symbol).storage with
    | .global slot => update fun s => { s with globals := Function.update s.globals slot v }
    | .frame slot =>
      if (x.facts.symbol symbol).function = x.function then
        update fun s => { s with slots := Function.update s.slots slot v }
      else fail .danglingReference
    | _ => fail .danglingReference

/-- Reads a variable that a lambda captures. -/
def readCaptured (x : Activation) (symbol : Nat) : Eval Value :=
  match (x.facts.symbol symbol).storage with
  | .frame slot => readVariable x symbol slot (x.facts.symbol symbol).function
  | _ => fail .danglingReference

/-- Reads the variables that a lambda captures. -/
def readAllCaptured (x : Activation) : List Nat → Eval (List Value)
  | [] => return []
  | symbol :: rest => do
    let v ← readCaptured x symbol
    return v :: (← readAllCaptured x rest)

/-- Makes the function value of a lambda, with copies of the variables it captures. -/
def lambda (x : Activation) (n : Note) : Eval Value :=
  match n.function with
  | none => fail .danglingReference
  | some f =>
    match x.facts.captures f with
    | [] => return constant f
    | captures => do
      let vs ← readAllCaptured x captures
      return .function (← identity) f vs

/-! ### Calls -/

/-- Prints a line. -/
def print (line : String) : Eval Value :=
  fun s r =>
    match s.output.writeLine line with
    | (o, true) => r = .ok .unit { s with output := o }
    | (o, false) => r = .fault (.output "output limit") o

/-- The input at an index. -/
def input (x : Activation) (index : Int64) : Except Fault Value :=
  match if 0 ≤ index.toInt then x.inputs[index.toInt.toNat]? else none with
  | some s => .ok (.str s)
  | none => .error (.indexOutOfRange index x.inputs.length)

/-- The input whose index a value is. -/
def inputAt (x : Activation) : Value → Except Fault Value
  | .int i => input x i
  | v => .error (.invalidOperand "arg" v.typeName)

/-- Calls a builtin. -/
def builtin (x : Activation) : Builtin → List Value → Eval Value
  | .print, [v] => print v.display
  | .len, [v] => lift (v.length.map fun n => .int (Int64.ofNat n))
  | .arg, [v] => lift (inputAt x v)
  | .argCount, [] => return .int (Int64.ofNat x.inputs.length)
  | .push, [target, item] => lift (target.push item)
  | b, args => fail (.arityMismatch b.arity args.length)

/-- Calls a value. The depth of calls is checked for functions of the program. -/
def apply (x : Activation) (callee : Value) (args : List Value) : Eval Value :=
  match callee with
  | .function _ f captures =>
    if x.maxDepth ≤ x.depth then fail (.stackExhausted x.maxDepth) else x.call f captures args
  | .builtin b => builtin x b args
  | v => fail (.invalidOperand "()" v.typeName)

/-! ### Expressions -/

/-- The truth of a condition. -/
def truth : Value → Eval Bool
  | .bool b => return b
  | v => fail (.invalidOperand "if" v.typeName)

/-- Whether the left operand of a logical operator decides alone. -/
def decides : LogicalOp → Bool → Bool
  | .and, l => !l
  | .or, l => l

/-- Goes on with the right operand of a logical operator unless the left one decides. -/
def shortCircuit (op : LogicalOp) (l : Value) (right : Eval Value) : Eval Value := do
  if decides op (← truth l) then return l else right

mutual

/-- The value of an expression. Operands are evaluated from left to right. -/
def expr (x : Activation) : Expr → Eval Value
  | .lit _ v => return v.toValue
  | .ident n _ => read x n
  | .unary _ op e => do lift ((← expr x e).unary op)
  | .binary _ op l r => do
    let l ← expr x l
    match op.split with
    | .inl op => do lift (Value.binary op.toBinary l (← expr x r))
    | .inr op => shortCircuit op l (expr x r)
  | .assign _ (.index _ base index) value => do
    let list ← read x base.note
    let i ← expr x index
    let v ← expr x value
    write x base.note (← lift (list.setItem i v))
    return v
  | .assign _ target value => do
    let v ← expr x value
    write x target.note v
    return v
  | .call _ callee args => do
    let f ← expr x callee
    apply x f (← exprs x args)
  | .index _ target index => do
    let v ← expr x target
    lift (v.getItem (← expr x index))
  | .list _ items => do return .list (← exprs x items)
  | .cast _ e target => do lift ((← expr x e).cast target)
  | .lambda n _ _ => lambda x n

/-- The values of expressions, one after the other. -/
def exprs (x : Activation) : List Expr → Eval (List Value)
  | [] => return []
  | e :: es => do
    let v ← expr x e
    return v :: (← exprs x es)

end

/-! ### Statements -/

/-- How control leaves a statement. -/
inductive Signal where
  /-- At its end. -/
  | normal
  | broke
  | continued
  | returned (v : Value)

/-- Goes on after a statement that control left at its end. -/
def Signal.next (signal : Signal) (rest : Eval Signal) : Eval Signal :=
  match signal with
  | .normal => rest
  | signal => return signal

/-- Repeats the body of a loop, at most so many rounds. -/
def iterate : Nat → Eval Signal → Eval Signal
  | 0, _ => timeout
  | fuel + 1, body => do
    match ← body with
    | .normal | .continued => iterate fuel body
    | .broke => return .normal
    | .returned v => return .returned v

mutual

/-- Runs a statement. -/
def stmt (x : Activation) : Stmt → Eval Signal
  | .block b => block x b
  | .letVar n _ _ init => do
    write x n (← expr x init)
    return .normal
  | .fnDecl _ _ _ _ => return .normal
  | .ret _ none => return .returned .unit
  | .ret _ (some e) => do return .returned (← expr x e)
  | .cond _ test yes none => do
    if ← truth (← expr x test) then block x yes else return .normal
  | .cond _ test yes (some no) => do
    if ← truth (← expr x test) then block x yes else stmt x no
  | .whileLoop _ test body =>
    iterate x.fuel do if ← truth (← expr x test) then block x body else return .broke
  | .loop _ body => iterate x.fuel (block x body)
  | .breakLoop _ => return .broke
  | .continueLoop _ => return .continued
  | .expr _ e => do
    let _ ← expr x e
    return .normal

/-- Runs statements, one after the other. -/
def stmts (x : Activation) : List Stmt → Eval Signal
  | [] => return .normal
  | s :: ss => do (← stmt x s).next (stmts x ss)

/-- Runs a block whose result is not used. -/
def block (x : Activation) : Block → Eval Signal
  | .mk _ ss none => stmts x ss
  | .mk _ ss (some e) => do
    (← stmts x ss).next do
      let _ ← expr x e
      return .normal

end

/-! ### Functions -/

/-- The result of a function body: what it returns, or the result after its statements. -/
def body (x : Activation) : Block → Eval Value
  | .mk _ ss tail => do
    match ← stmts x ss with
    | .returned v => return v
    | .normal =>
      match tail with
      | none => return .unit
      | some e => expr x e
    | .broke | .continued => fail .danglingReference

/-- The limits and inputs of an evaluation. -/
structure Environment where
  program : Analyzed
  inputs : List String
  maxDepth : Nat

/-- Calls a function of the program with so much fuel, as the call number `depth` of those that
have not returned. Arguments fill the first slots, the others are unit. -/
def invoke (p : Environment) : Nat → Nat → Nat → List Value → List Value → Eval Value
  | 0, _, _, _, _ => timeout
  | fuel + 1, depth, function, captures, args =>
    match p.program.facts.functions[function]?, p.program.bodies.lookup function with
    | some info, some b =>
      if args.length = info.params.length then
        within (fun i => args.getD i .unit)
          (body { facts := p.program.facts, inputs := p.inputs, maxDepth := p.maxDepth, function,
                  captures, depth, fuel, call := invoke p fuel (depth + 1) } b)
      else fail (.arityMismatch info.params.length args.length)
    | _, _ => fail .danglingReference

/-- The store before a program runs. -/
def start (a : Analyzed) (outputLimit : Option Nat) : Store :=
  { slots := fun _ => .unit
    globals := fun _ => .unit
    output := { limit := outputLimit }
    fresh := a.facts.functions.size }

/-! ### Every evaluation has a result -/

namespace Eval

variable {α β : Type}

/-- A value that is there already is the only result, and the store stays. -/
@[simp] theorem pure_apply {a : α} {s : Store} {r : Result α} :
    (pure a : Eval α) s r ↔ r = .ok a s :=
  Iff.rfl

/-- A sequence gives a value if both of its parts do. -/
theorem bind_ok {m : Eval α} {f : α → Eval β} {s s' : Store} {b : β} :
    (m >>= f) s (.ok b s') ↔ ∃ a t, m s (.ok a t) ∧ f a t (.ok b s') := by
  constructor
  · rintro ⟨q, hq, hr⟩
    cases q with
    | ok a t => exact ⟨a, t, hq, hr⟩
    | fault k o => cases hr
    | timeout o => cases hr
  · rintro ⟨a, t, hq, hr⟩
    exact ⟨.ok a t, hq, hr⟩

/-- An evaluation that has a result in every store. -/
def Total (m : Eval α) : Prop :=
  ∀ s, ∃ r, m s r

/-- A value that is there already is a result. -/
theorem total_pure (a : α) : Total (pure a : Eval α) :=
  fun s => ⟨.ok a s, rfl⟩

/-- A fault is a result. -/
theorem total_fail (k : Fault) : Total (fail k : Eval α) :=
  fun s => ⟨.fault k s.output, rfl⟩

/-- To run out of fuel is a result too. -/
theorem total_timeout : Total (timeout : Eval α) :=
  fun s => ⟨.timeout s.output, rfl⟩

/-- There is always a store to look at. -/
theorem total_store : Total store :=
  fun s => ⟨.ok s s, rfl⟩

/-- A change of the store always succeeds. -/
theorem total_update (f : Store → Store) : Total (update f) :=
  fun s => ⟨.ok () (f s), rfl⟩

/-- There is some value, the unit value for example. -/
theorem total_anything : Total anything :=
  fun s => ⟨.ok .unit s, .unit, rfl⟩

/-- There is always an identity that no function has: those below `fresh` are given out, and all
others are free. -/
theorem total_identity : Total identity :=
  fun s => ⟨.ok s.fresh { s with fresh := s.fresh + 1 }, s.fresh, Nat.le_refl _, rfl⟩

/-- An operation on values has a value or a fault. -/
theorem total_lift (r : Except Fault α) : Total (lift r) := by
  cases r with
  | ok a => exact total_pure a
  | error k => exact total_fail k

/-- Two evaluations in a row have a result if each of them has one in every store. -/
theorem Total.bind {m : Eval α} {f : α → Eval β} (hm : Total m) (hf : ∀ a, Total (f a)) :
    Total (m >>= f) := by
  intro s
  obtain ⟨q, hq⟩ := hm s
  cases q with
  | ok a s' =>
      obtain ⟨r, hr⟩ := hf a s'
      exact ⟨r, .ok a s', hq, hr⟩
  | fault k o => exact ⟨.fault k o, .fault k o, hq, rfl⟩
  | timeout o => exact ⟨.timeout o, .timeout o, hq, rfl⟩

/-- In slots of its own an evaluation has a result if it has one in every store. -/
theorem Total.within {slots : Nat → Value} {m : Eval α} (h : Total m) :
    Total (within slots m) :=
  total_store.bind fun _ => (total_update _).bind fun _ => h.bind fun _ =>
    (total_update _).bind fun _ => total_pure _

end Eval

variable {x : Activation}

/-- A captured value is there, or reading it is a fault. -/
theorem captured_total (index : Nat) : Total (captured x index) := by
  unfold captured
  split
  · exact total_pure _
  · exact total_fail _

/-- A variable can be read wherever it is kept. -/
theorem readVariable_total (symbol slot owner : Nat) :
    Total (readVariable x symbol slot owner) := by
  unfold readVariable
  split
  · exact total_store.bind fun _ => total_pure _
  · split
    · exact captured_total _
    · exact total_fail _

/-- A name has some value, or reading it is a fault. Nothing says which one if it was not resolved.
-/
theorem read_total (n : Note) : Total (read x n) := by
  unfold read
  split
  · exact total_anything
  · split
    · exact total_store.bind fun _ => total_pure _
    · exact readVariable_total _ _ _
    · exact total_pure _
    · exact total_pure _

/-- A variable is written, and writing anything else is a fault. -/
theorem write_total (n : Note) (v : Value) : Total (write x n v) := by
  unfold write
  split
  · exact total_fail _
  · split
    · exact total_update _
    · split
      · exact total_update _
      · exact total_fail _
    · exact total_fail _

/-- The captured variables can all be read. -/
theorem readAllCaptured_total (captures : List Nat) : Total (readAllCaptured x captures) := by
  induction captures with
  | nil => exact total_pure _
  | cons symbol rest ih =>
      refine Total.bind ?_ fun _ => ih.bind fun _ => total_pure _
      unfold readCaptured
      split
      · exact readVariable_total _ _ _
      · exact total_fail _

/-- A lambda makes a function value. -/
theorem lambda_total (n : Note) : Total (lambda x n) := by
  unfold lambda
  split
  · exact total_fail _
  · split
    · exact total_pure _
    · exact (readAllCaptured_total _).bind fun _ => total_identity.bind fun _ => total_pure _

/-- A builtin gives a value or a fault, for every number of arguments. -/
theorem builtin_total (b : Builtin) (args : List Value) : Total (builtin x b args) := by
  unfold builtin
  split
  · intro s
    unfold print
    rcases s.output.writeLine _ with ⟨o, written⟩
    cases written with
    | true => exact ⟨_, rfl⟩
    | false => exact ⟨_, rfl⟩
  · exact total_lift _
  · exact total_lift _
  · exact total_pure _
  · exact total_lift _
  · exact total_fail _

/-- Calls have a result. -/
def Activation.CallsTotal (x : Activation) : Prop :=
  ∀ f captures args, Total (x.call f captures args)

/-- A call has a result if the called function has one. Too many calls inside each other are a
fault. -/
theorem apply_total (hx : x.CallsTotal) (callee : Value)
    (args : List Value) : Total (apply x callee args) := by
  unfold apply
  split
  · split
    · exact total_fail _
    · exact hx _ _ _
  · exact builtin_total _ _
  · exact total_fail _

/-- A value is a truth value or a fault. -/
theorem truth_total (v : Value) : Total (truth v) := by
  unfold truth
  split
  · exact total_pure _
  · exact total_fail _

/-- A logical operator has a result if its right operand has one. -/
theorem shortCircuit_total (op : LogicalOp) (l : Value) {right : Eval Value} (h : Total right) :
    Total (shortCircuit op l right) := by
  refine (truth_total l).bind fun b => ?_
  split
  · exact total_pure _
  · exact h

/-- A loop has a result after finitely many rounds: it ends, fails or runs out of fuel. -/
theorem iterate_total {m : Eval Signal} (h : Total m) (fuel : Nat) : Total (iterate fuel m) := by
  induction fuel with
  | zero => exact total_timeout
  | succ fuel ih =>
      refine h.bind fun signal => ?_
      cases signal with
      | normal => exact ih
      | continued => exact ih
      | broke => exact total_pure _
      | returned v => exact total_pure _

/-- What follows a statement has a result, whether it is reached or not. -/
theorem Signal.next_total (signal : Signal) {m : Eval Signal} (h : Total m) :
    Total (signal.next m) := by
  cases signal with
  | normal => exact h
  | broke => exact total_pure _
  | continued => exact total_pure _
  | returned v => exact total_pure _

mutual

/-- **Expressions.** Every expression has a result in every store, by induction on the tree. A
result may be a fault or no value in time; calls are assumed to have one. -/
theorem expr_total (hx : x.CallsTotal) : ∀ e : Expr, Total (expr x e)
  | .lit _ _ => by rw [expr]; exact total_pure _
  | .ident n _ => by rw [expr]; exact read_total n
  | .unary _ _ e => by rw [expr]; exact (expr_total hx e).bind fun _ => total_lift _
  | .binary _ op l r => by
      rw [expr]
      refine (expr_total hx l).bind fun v => ?_
      split
      · exact (expr_total hx r).bind fun _ => total_lift _
      · exact shortCircuit_total _ v (expr_total hx r)
  | .assign _ target value => by
      cases target with
      | index _ base index =>
          rw [expr]
          exact (read_total base.note).bind fun _ => (expr_total hx index).bind fun _ =>
            (expr_total hx value).bind fun _ => (total_lift _).bind fun _ =>
              (write_total base.note _).bind fun _ => total_pure _
      | _ =>
          rw [expr]
          · exact (expr_total hx value).bind fun _ => (write_total _ _).bind fun _ => total_pure _
          · intros
            contradiction
  | .call _ callee args => by
      rw [expr]
      exact (expr_total hx callee).bind fun f => (exprs_total hx args).bind fun _ => apply_total hx f _
  | .index _ target index => by
      rw [expr]
      exact (expr_total hx target).bind fun _ => (expr_total hx index).bind fun _ => total_lift _
  | .list _ items => by rw [expr]; exact (exprs_total hx items).bind fun _ => total_pure _
  | .cast _ e _ => by rw [expr]; exact (expr_total hx e).bind fun _ => total_lift _
  | .lambda n _ _ => by rw [expr]; exact lambda_total n

/-- Expressions in a list have a result. -/
theorem exprs_total (hx : x.CallsTotal) : ∀ es : List Expr, Total (exprs x es)
  | [] => by rw [exprs]; exact total_pure _
  | e :: es => by
      rw [exprs]
      exact (expr_total hx e).bind fun _ => (exprs_total hx es).bind fun _ => total_pure _

end

mutual

/-- **Statements.** Every statement has a result in every store. A loop that does not end has the
result that time ran out, which is what its fuel is for. -/
theorem stmt_total (hx : x.CallsTotal) : ∀ s : Stmt, Total (stmt x s)
  | .block b => by rw [stmt]; exact block_total hx b
  | .letVar n _ _ init => by
      rw [stmt]
      exact (expr_total hx init).bind fun _ => (write_total n _).bind fun _ => total_pure _
  | .fnDecl _ _ _ _ => by rw [stmt]; exact total_pure _
  | .ret _ none => by rw [stmt]; exact total_pure _
  | .ret _ (some e) => by rw [stmt]; exact (expr_total hx e).bind fun _ => total_pure _
  | .cond _ test yes none => by
      rw [stmt]
      refine (expr_total hx test).bind fun v => (truth_total v).bind fun b => ?_
      split
      · exact block_total hx yes
      · exact total_pure _
  | .cond _ test yes (some no) => by
      rw [stmt]
      refine (expr_total hx test).bind fun v => (truth_total v).bind fun b => ?_
      split
      · exact block_total hx yes
      · exact stmt_total hx no
  | .whileLoop _ test b => by
      rw [stmt]
      refine iterate_total ((expr_total hx test).bind fun v => (truth_total v).bind fun b => ?_) _
      split
      · exact block_total hx _
      · exact total_pure _
  | .loop _ b => by rw [stmt]; exact iterate_total (block_total hx b) _
  | .breakLoop _ => by rw [stmt]; exact total_pure _
  | .continueLoop _ => by rw [stmt]; exact total_pure _
  | .expr _ e => by rw [stmt]; exact (expr_total hx e).bind fun _ => total_pure _

/-- Statements in a row have a result. -/
theorem stmts_total (hx : x.CallsTotal) : ∀ ss : List Stmt, Total (stmts x ss)
  | [] => by rw [stmts]; exact total_pure _
  | s :: ss => by
      rw [stmts]
      exact (stmt_total hx s).bind fun signal => signal.next_total (stmts_total hx ss)

/-- A block has a result. -/
theorem block_total (hx : x.CallsTotal) : ∀ b : Block, Total (block x b)
  | .mk _ ss none => by rw [block]; exact stmts_total hx ss
  | .mk _ ss (some e) => by
      rw [block]
      exact (stmts_total hx ss).bind fun signal =>
        signal.next_total ((expr_total hx e).bind fun _ => total_pure _)

end

/-- The body of a function has a result. -/
theorem body_total (hx : x.CallsTotal) (b : Block) : Total (body x b) := by
  cases b with
  | mk n ss tail =>
      unfold body
      refine (stmts_total hx ss).bind fun signal => ?_
      cases signal with
      | returned v => exact total_pure v
      | normal =>
          cases tail with
          | none => exact total_pure _
          | some e => exact expr_total hx e
      | broke => exact total_fail _
      | continued => exact total_fail _

/-- **Totality.** A call of a function of the program has a result, whatever its fuel. -/
theorem invoke_total (p : Environment) (fuel : Nat) :
    ∀ depth function captures args, Total (invoke p fuel depth function captures args) := by
  induction fuel with
  | zero =>
      intro depth function captures args
      exact total_timeout
  | succ fuel ih =>
      intro depth function captures args
      rw [invoke]
      split
      · split
        · exact (body_total (fun f captures args => ih (depth + 1) f captures args) _).within
        · exact total_fail _
      · exact total_fail _

end BigStep

/-- A program evaluates to a result with the inputs and limits of a run. -/
def Analyzed.Evaluates (a : Analyzed) (o : RunOptions) (r : BigStep.Result Value) : Prop :=
  ∃ fuel, BigStep.invoke { program := a, inputs := o.inputs, maxDepth := o.maxDepth } fuel 1 0 [] []
    (BigStep.start a o.outputLimit) r

end Parlance
