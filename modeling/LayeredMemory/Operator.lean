namespace LayeredMemory

inductive UnaryOp
  | not
  | neg
  deriving DecidableEq, Repr

inductive BinaryOp
  | add
  | sub
  | and
  | or
  | xor
  | shl
  | shr
  deriving DecidableEq, Repr

namespace UnaryOp

def all : List UnaryOp := [.not, .neg]

def name : UnaryOp → String
  | .not => "not"
  | .neg => "neg"

def sign : UnaryOp → String
  | .not => "~"
  | .neg => "-"

def ofName? (s : String) : Option UnaryOp := all.find? (fun op => op.name == s)

end UnaryOp

namespace BinaryOp

def all : List BinaryOp := [.add, .sub, .and, .or, .xor, .shl, .shr]

def name : BinaryOp → String
  | .add => "add"
  | .sub => "sub"
  | .and => "and"
  | .or => "or"
  | .xor => "xor"
  | .shl => "shl"
  | .shr => "shr"

def sign : BinaryOp → String
  | .add => "+"
  | .sub => "-"
  | .and => "&"
  | .or => "|"
  | .xor => "^"
  | .shl => "<<"
  | .shr => ">>"

def ofName? (s : String) : Option BinaryOp := all.find? (fun op => op.name == s)

def isCommutative : BinaryOp → Bool
  | .add | .and | .or | .xor => true
  | .sub | .shl | .shr => false

def isShift : BinaryOp → Bool
  | .shl | .shr => true
  | _ => false

end BinaryOp

end LayeredMemory
