import LayeredMemory.Constant

namespace LayeredMemory

inductive Expr
  | const (value : Constant)
  | symbol (name : String) (width : Width)
  | unary (op : UnaryOp) (operand : Expr) (width : Width)
  | binary (op : BinaryOp) (lhs rhs : Expr) (width : Width)
  | resize (operand : Expr) (width : Width)
  deriving DecidableEq

abbrev Binding := String → Option Constant

namespace Expr

def width : Expr → Width
  | const c => c.width
  | symbol _ w | unary _ _ w | binary _ _ _ w | resize _ w => w

def asConst? : Expr → Option Constant
  | const c => some c
  | _ => none

def isConst (e : Expr) : Bool := e.asConst?.isSome

def resized (e : Expr) (w : Width) : Expr :=
  if e.width = w then e
  else match e with
    | const c => const (c.resize w)
    | e => resize e w

def evaluate (bind : Binding) : Expr → Option Constant
  | const c => some c
  | symbol name w => (bind name).map (·.resize w)
  | unary op x w => do
    let a ← evaluate bind x
    return a.unary op w
  | binary op l r w => do
    let a ← evaluate bind l
    let b ← evaluate bind r
    return a.binary op b w
  | resize x w => do
    let a ← evaluate bind x
    return a.resize w

def addNames : Expr → List String → List String
  | const _, l => l
  | symbol name _, l => name :: l
  | unary _ x _, l | resize x _, l => x.addNames l
  | binary _ x y _, l => x.addNames (y.addNames l)

def names (e : Expr) : List String := e.addNames []

theorem addNames_eq_append (e : Expr) (l : List String) : e.addNames l = e.names ++ l := by
  induction e generalizing l with
  | const _ => rfl
  | symbol _ _ => rfl
  | unary _ x _ ih => exact ih l
  | binary _ x y _ ihx ihy =>
    simp only [names, addNames]
    rw [ihx, ihy, ihx, List.append_assoc]
    rfl
  | resize x _ ih => exact ih l

@[simp] theorem names_const (c : Constant) : (const c).names = [] := rfl

@[simp] theorem names_symbol (name : String) (w : Width) : (symbol name w).names = [name] := rfl

@[simp] theorem names_unary (op : UnaryOp) (x : Expr) (w : Width) : (unary op x w).names = x.names := rfl

@[simp] theorem names_binary (op : BinaryOp) (x y : Expr) (w : Width) :
    (binary op x y w).names = x.names ++ y.names :=
  addNames_eq_append x y.names

@[simp] theorem names_resize (x : Expr) (w : Width) : (resize x w).names = x.names := rfl

def distinct : List String → List String
  | s :: t :: rest => if s = t then distinct (t :: rest) else s :: distinct (t :: rest)
  | l => l

def symbols (e : Expr) : List String :=
  distinct (e.names.mergeSort (fun a b => decide (a ≤ b)))

def depth : Expr → Nat
  | const _ | symbol _ _ => 0
  | unary _ x _ | resize x _ => 1 + x.depth
  | binary _ l r _ => 1 + max l.depth r.depth

def appendText : Expr → String → String
  | const c, s => s ++ c.text
  | symbol name w, s => s ++ s!"{name}:{w.text}"
  | unary op x _, s => x.appendText (s ++ "(" ++ op.sign) ++ ")"
  | binary op l r _, s => r.appendText (l.appendText (s ++ "(") ++ s!" {op.sign} ") ++ ")"
  | resize x w, s => x.appendText (s ++ s!"resize{w.text}(") ++ ")"

def text (e : Expr) : String := e.appendText ""

theorem appendText_eq_append (e : Expr) (s : String) : e.appendText s = s ++ e.text := by
  induction e generalizing s with
  | const c => simp [text, appendText]
  | symbol name w => simp [text, appendText]
  | unary op x w ih =>
    simp only [text, appendText]
    rw [ih, ih ("" ++ "(" ++ op.sign)]
    simp [String.append_assoc]
  | binary op l r w ihl ihr =>
    simp only [text, appendText]
    rw [ihl, ihr, ihl ("" ++ "("), ihr ("" ++ "(" ++ l.text ++ _)]
    simp [String.append_assoc]
  | resize x w ih =>
    simp only [text, appendText]
    rw [ih, ih ("" ++ _)]
    simp [String.append_assoc]

def appendOutline : Expr → String → String
  | const c, s => s ++ "#" ++ Text.hexBytes c.bytes.toList
  | symbol name w, s => s ++ s!"${name}:{w.bytes}"
  | unary op x w, s => x.appendOutline (s ++ s!"({op.name}:{w.bytes} ") ++ ")"
  | binary op l r w, s =>
    r.appendOutline (l.appendOutline (s ++ s!"({op.name}:{w.bytes} ") ++ " ") ++ ")"
  | resize x w, s => x.appendOutline (s ++ s!"(resize:{w.bytes} ") ++ ")"

def outline (e : Expr) : String := e.appendOutline ""

end Expr

end LayeredMemory
