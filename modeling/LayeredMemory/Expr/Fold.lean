import LayeredMemory.Expr.Basic

namespace LayeredMemory.Expr

def withZeroRight (op : BinaryOp) (l : Expr) (w : Width) : Expr :=
  match op with
  | .and => const (.zero w)
  | .add | .sub | .or | .xor | .shl | .shr => l.resized w

def withZeroLeft (op : BinaryOp) (zero r : Expr) (w : Width) : Expr :=
  match op with
  | .add | .or | .xor => r.resized w
  | .and | .shl | .shr => const (.zero w)
  | .sub => binary .sub zero r w

def shiftsOut (amount : Constant) (w : Width) : Bool := decide (w.bits ≤ amount.value)

def foldBinary (op : BinaryOp) (l r : Expr) (w : Width) : Expr :=
  match l.asConst?, r.asConst? with
  | some a, some b => const (a.binary op b w)
  | none, some b =>
    if b.isZero then withZeroRight op l w
    else if op.isShift && shiftsOut b w then const (.zero w)
    else binary op l r w
  | some a, none => if a.isZero then withZeroLeft op l r w else binary op l r w
  | none, none => binary op l r w

def foldUnary (op : UnaryOp) (x : Expr) (w : Width) : Expr :=
  match x.asConst? with
  | some a => const (a.unary op w)
  | none => unary op x w

def fold : Expr → Expr
  | const c => const c
  | symbol name w => symbol name w
  | unary op x w => foldUnary op x.fold w
  | binary op l r w => foldBinary op l.fold r.fold w
  | resize x w => x.fold.resized w

end LayeredMemory.Expr
