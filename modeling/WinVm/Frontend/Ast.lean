import Mathlib.Data.List.Basic

/-!
# The syntax tree

`frontend/ast.rs`. A block is a constructor of `Expr` here, with the fields of the
source's `BlockNode`; `scope_id` is written by capture analysis.
-/

namespace WinVm.Frontend

structure Span where
  line : BitVec 32
  col : BitVec 32
deriving DecidableEq, Repr, Inhabited

/-- A float is its bit pattern, a large integer its little-endian magnitude. -/
inductive Literal where
  | int (v : Int)
  | bigInt (negative : Bool) (digits : List (BitVec 8))
  | float (bits : BitVec 64)
  | char (c : Char)
  | str (s : String)
  | symbol (s : String)
  | array (items : List Literal)
  | byteArray (bytes : List (BitVec 8))
  | nil
  | true
  | false

inductive Expr where
  | selfRef (span : Span)
  | var (name : String) (span : Span)
  | lit (value : Literal) (span : Span)
  | assign (name : String) (value : Expr) (span : Span)
  | send (receiver : Expr) (selector : String) (args : List Expr) (isSuper : Bool) (span : Span)
  | cascade (receiver : Expr) (segments : List Expr) (span : Span)
  /-- The innermost receiver inside each cascade segment. -/
  | cascadeRcvr (span : Span)
  | dynArray (elems : List Expr) (span : Span)
  | block (params temps : List String) (body : List Expr) (span : Span) (scopeId : Nat)
  /-- Statement position only. -/
  | ret (value : Expr) (span : Span)

namespace Expr

def span : Expr → Span
  | selfRef s | var _ s | lit _ s | assign _ _ s | send _ _ _ _ s | cascade _ _ s => s
  | cascadeRcvr s | dynArray _ s | block _ _ _ s _ | ret _ s => s

end Expr

inductive FfiPragma where
  | function (name ret : String) (args : List String)
  | selector (selector className : String) (classSide : Bool) (ret : String) (args : List String)
deriving DecidableEq, Repr

structure MethodNode where
  patternSelector : String
  params : List String
  primitive : Option (BitVec 16)
  ffi : Option FfiPragma
  temps : List String
  body : List Expr
  classSide : Bool
  span : Span

/-- `CompileError`; the path is attached by the file loader. -/
structure CompileError where
  span : Span
  msg : String
  eof : Bool
deriving DecidableEq, Repr

end WinVm.Frontend
