import ScalarJit.Double.Decimal
import ScalarJit.Dump.Json
import ScalarJit.Tree.Program

/-! # A program as a JSON document

Functions and externs stand in the order of their names. Every expression shows its type, its
category and whether it has an effect. -/

namespace ScalarJit.Dump

def varRef (v : VarRef) : Json :=
  .object [("block", .natural v.block), ("index", .natural v.index)]

def attributed (e : Expr) (kind : String) (payload : Json) : Json :=
  .object
    [("kind", .object [(kind, payload)]), ("ty", .string e.ty.name),
      ("category", .string e.category.name), ("useful", .bool e.useful)]

mutual

def expr : Expr → Json
  | e@(.literal value) => attributed e "Literal" (.number (NumberStyle.json.write value))
  | e@(.binary op lhs rhs) =>
    attributed e "Binary"
      (.object [("op", .string op.name), ("lhs", expr lhs), ("rhs", expr rhs)])
  | e@(.unary op operand) =>
    attributed e "Unary" (.object [("op", .string op.name), ("operand", expr operand)])
  | e@(.read name var _ _) =>
    attributed e "Read" (.object [("name", .string name), ("var", varRef var)])
  | e@(.write name var value) =>
    attributed e "Write"
      (.object [("name", .string name), ("var", varRef var), ("value", expr value)])
  | e@(.bind name var value) =>
    attributed e "Let"
      (.object [("name", .string name), ("var", varRef var), ("value", expr value)])
  | e@(.call callee args _) =>
    attributed e "Call" (.object [("callee", .string callee), ("args", .array (exprs args))])
  | e@.leave => attributed e "Return" .null
  | e@(.leaveWith value) => attributed e "Return" (expr value)
  | e@(.ifThen condition onTrue) =>
    attributed e "If"
      (.object [("condition", expr condition), ("on_true", expr onTrue), ("on_false", .null)])
  | e@(.ifThenElse condition onTrue onFalse) =>
    attributed e "If"
      (.object
        [("condition", expr condition), ("on_true", expr onTrue), ("on_false", expr onFalse)])
  | e@(.block id _) => attributed e "Block" (.natural id)

def exprs : List Expr → List Json
  | [] => []
  | e :: rest => expr e :: exprs rest

end

def variableJson (v : Variable) : Json :=
  .object
    [("name", .string v.name), ("ty", .string v.ty.name), ("mutable", .bool v.mutable),
      ("slot", .natural v.slot), ("initialized", .bool true)]

def block (b : Block) : Json :=
  .object
    [("parent", Json.optional Json.natural b.parent),
      ("variables", .array (b.locals.map variableJson)),
      ("expressions", .array (exprs b.statements))]

def signature (s : Signature) : Json :=
  .object
    [("args", .array (s.args.map fun (name, ty) => .array [.string name, .string ty.name])),
      ("ret", .string s.result.name)]

def function (f : Function) : Json :=
  .object
    [("signature", signature f.signature), ("body", expr f.body),
      ("blocks", .array (f.blocks.map block)), ("slots", .natural f.slots)]

def diagnostic (d : Diagnostic) : Json :=
  .object
    [("severity", .string d.severity.text), ("message", .string d.message),
      ("line", .natural d.position.line), ("column", .natural d.position.column),
      ("source_line", .string d.sourceLine)]

def byName {α : Type} (f : α → Json) (entries : List (Named α)) : Json :=
  .object ((Named.sort entries).map fun (name, entry) => (name, f entry))

def program (p : Program) : Json :=
  .object
    [("functions", byName function p.functions),
      ("externs", byName (fun s => .object [("signature", signature s)]) p.externs),
      ("diagnostics", .array (p.diagnostics.map diagnostic))]

end ScalarJit.Dump
