import WinVm.Frontend.Lexer

/-!
# The parser

`frontend/parser.rs`: recursive descent over one token, and one more where an identifier is
ambiguous (`peek2`). The first error ends the parse. The nesting of the recursion and the length
of its loops are bounded by fuel; running out of it is no error of the source.

A literal array sets the lexer's mode one token ahead: before the token after its opening is read,
and before the one after its closing is.
-/

namespace WinVm.Frontend

inductive Indexable where
  | oops
  | bytes
deriving DecidableEq, Repr

structure ClassDefNode where
  superclass : String
  name : String
  indexable : Option Indexable
  instVars : List String
  classVars : List String
  methods : List MethodNode
  span : Span

inductive TopItem where
  | classDef (c : ClassDefNode)
  | doIt (e : Expr)

inductive ClassPragma where
  | indexable (i : Indexable)
  | classVars (names : List String)
  | ignored

/-! ## Integers -/

/-- `while carry > 0`, over the bytes of a `u32`. -/
def pushCarry : Nat → Nat → List (BitVec 8)
  | 0, _ => []
  | n + 1, carry => if carry = 0 then [] else BitVec.ofNat 8 carry :: pushCarry n (carry / 256)

/-- One digit: the magnitude times the radix, and the digit carried in. -/
def mulAdd (radix : Nat) : List (BitVec 8) → Nat → List (BitVec 8)
  | [], carry => pushCarry 4 carry
  | byte :: mag, carry =>
    let v := byte.toNat * radix + carry
    BitVec.ofNat 8 v :: mulAdd radix mag (v / 256)

def intLitMagnitude (radix : Nat) (digits : List Char) : List (BitVec 8) :=
  digits.foldl (fun mag c => mulAdd radix mag (toDigit c)) []

def bytesValue (mag : List (BitVec 8)) : Nat := mag.foldr (fun b v => b.toNat + 256 * v) 0

def smiMax : Int := 2 ^ 61 - 1

def smiMin : Int := -2 ^ 61

def intlitToLiteral (negative : Bool) (radix : Nat) (digits : List Char) : Literal :=
  let mag := intLitMagnitude radix digits
  let v : Int := bytesValue mag
  if mag.length ≤ 8 ∧ (if negative then v ≤ -smiMin else v ≤ smiMax) then
    .int (if negative then -v else v)
  else .bigInt negative mag

/-- `numerator:denominator:scale:`, with all digits in the numerator. -/
def scaledToSend (negative : Bool) (intDigits fracDigits : List Char) (scale : Nat) (span : Span) :
    Expr :=
  let numerator := intlitToLiteral negative 10 (intDigits ++ fracDigits)
  let denominator := intlitToLiteral false 10 ('1' :: List.replicate fracDigits.length '0')
  .send (.var "ScaledDecimal" span) "numerator:denominator:scale:"
    [.lit numerator span, .lit denominator span, .lit (.int scale) span] false span

/-! ## The parser's state -/

structure Parser where
  lx : Lexer
  cur : Tok × Span
  peeked : Option (Tok × Span)
  literalSeqDepth : Nat
deriving DecidableEq, Repr

/-- Nothing when the fuel runs out. -/
abbrev Parse := StateT Parser (ExceptT CompileError Option)

namespace Parser

/-- A run that gives a result and the state after it. -/
def Returns {α : Type} (x : Parse α) (p : Parser) (a : α) (p' : Parser) : Prop :=
  x p = ExceptT.mk (some (.ok (a, p')))

section Runs

variable {α β : Type} {p p' p'' : Parser}

theorem get_bind (f : Parser → Parse α) (p : Parser) : (get >>= f) p = f p p := rfl

theorem modify_bind (f : Parser → Parser) (g : Unit → Parse α) (p : Parser) :
    (modify f >>= g) p = g () (f p) := rfl

theorem Returns.pure (a : α) : Returns (Pure.pure a) p a p := rfl

theorem Returns.bind_eq {x : Parse α} {f : α → Parse β} {a : α} (h : Returns x p a p') :
    (x >>= f) p = f a p' := by
  change ExceptT.bind (x p) _ = _
  rw [h]
  rfl

theorem Returns.bind {x : Parse α} {f : α → Parse β} {a : α} {b : β} (h : Returns x p a p')
    (hf : Returns (f a) p' b p'') : Returns (x >>= f) p b p'' := h.bind_eq.trans hf

theorem Returns.unique {x : Parse α} {a b : α} (h : Returns x p a p') (h' : Returns x p b p'') :
    a = b ∧ p' = p'' := by
  have heq := Option.some.inj (h.symm.trans h')
  injection heq with heq
  exact Prod.mk.inj heq

end Runs

def outOfFuel {α : Type} : Parse α := fun _ => ExceptT.mk none

def curTok : Parse Tok := do return (← get).cur.1

def curSpan : Parse Span := do return (← get).cur.2

theorem curTok_bind {α : Type} (f : Tok → Parse α) (p : Parser) :
    (curTok >>= f) p = f p.cur.1 p := rfl

/-- An error, with the flag that says whether the token at hand is the end of the input. -/
def error {α : Type} (span : Span) (msg : String) : Parse α := do
  throw ⟨span, msg, (← curTok) = .eof⟩

variable [F64]

def lexNext : Parse (Tok × Span) := do
  match (← get).lx.nextToken with
  | .error e => throw e
  | .ok (t, lx) =>
    modify fun p => { p with lx }
    return t

def bump : Parse Unit := do
  match (← get).peeked with
  | some t => modify fun p => { p with cur := t, peeked := none }
  | none =>
    let t ← lexNext
    modify fun p => { p with cur := t }

theorem bump_returns {p : Parser} {t : Tok × Span} {lx : Lexer} (hpeeked : p.peeked = none)
    (hnext : p.lx.nextToken = .ok (t, lx)) : Returns bump p () { p with cur := t, lx := lx } := by
  have hlex : Returns lexNext p t { p with lx := lx } := by
    unfold Returns lexNext
    rw [get_bind, hnext]
    rfl
  unfold Returns bump
  rw [get_bind, hpeeked]
  dsimp only
  rw [hlex.bind_eq, ← hpeeked]
  rfl

def peek2 : Parse Tok := do
  match (← get).peeked with
  | some t => return t.1
  | none =>
    let t ← lexNext
    modify fun p => { p with peeked := some t }
    return t.1

def setPragmaMode (v : Bool) : Parse Unit :=
  modify fun p => { p with lx := { p.lx with pragmaMode := v } }

def setInLiteralSeq (v : Bool) : Parse Unit :=
  modify fun p => { p with lx := { p.lx with inLiteralSeq := v } }

/-- `RESERVED`. -/
def isReserved (name : String) : Bool := name ∈ ["self", "super", "nil", "true", "false"]

def checkNotReserved (span : Span) (name : String) : Parse Unit :=
  if isReserved name then error span s!"'{name}' is a reserved word" else pure ()

/-- For a token without data. -/
def expect (want : Tok) (msg : String) : Parse Unit := do
  if (← curTok) = want then bump else error (← curSpan) msg

def expectIdent (msg : String) : Parse String := do
  match ← curTok with
  | .ident n =>
    bump
    return n
  | _ => error (← curSpan) msg

def expectKeyword (kw : String) : Parse Unit := do
  if (← curTok) = .keyword kw then bump else error (← curSpan) s!"expected '{kw}'"

def enterLiteralSeq : Parse Unit := do
  modify fun p => { p with literalSeqDepth := p.literalSeqDepth + 1 }
  if (← get).literalSeqDepth = 1 then setInLiteralSeq true

def exitLiteralSeq : Parse Unit := do
  modify fun p => { p with literalSeqDepth := p.literalSeqDepth - 1 }
  if (← get).literalSeqDepth = 0 then setInLiteralSeq false

/-! ## Literals -/

def closeParen (msg : String) : Parse Unit := do
  if (← curTok) = .rParen then bump else error (← curSpan) msg

/-- Keywords join as long as each starts at the column where the one before it ends. -/
def parseKeywordRun : Nat → Option (BitVec 32) → Parse String
  | 0, _ => outOfFuel
  | n + 1, expectCol => do
    match (← get).cur with
    | (.keyword k, span) =>
      if expectCol.any (span.col ≠ ·) then return ""
      bump
      return k ++ (← parseKeywordRun n (some (span.col + BitVec.ofNat 32 k.utf8ByteSize)))
    | _ => return ""

def parseByteElems : Nat → Parse (List (BitVec 8))
  | 0 => outOfFuel
  | n + 1 => do
    match (← get).cur with
    | (.rBracket, _) => return []
    | (.intLit negative radix digits, span) =>
      bump
      let mag := intLitMagnitude radix digits
      if negative ∨ 1 < mag.length then error span "byte array element out of range 0..255"
      return mag.headD 0 :: (← parseByteElems n)
    | (_, span) => error span "byte array elements must be integers"

def parseByteArrayLiteral (n : Nat) : Parse Literal := do
  enterLiteralSeq
  bump
  let bytes ← parseByteElems n
  exitLiteralSeq
  bump
  return .byteArray bytes

/-- The elements that are one token. -/
def arrayElemOf : Tok → Option Literal
  | .intLit negative radix digits => some (intlitToLiteral negative radix digits)
  | .floatLit v => some (.float v)
  | .charLit c => some (.char c)
  | .strLit s => some (.str s)
  | .symLit s | .binarySel s => some (.symbol s)
  | .ident name =>
    some (if name = "nil" then .nil else if name = "true" then .true
      else if name = "false" then .false else .symbol name)
  | .vBar => some (.symbol "|")
  | _ => none

mutual

def parseArrayElems : Nat → Parse (List Literal)
  | 0 => outOfFuel
  | n + 1 => do
    if (← curTok) = .rParen then return []
    let e ← parseArrayElem n
    return e :: (← parseArrayElems n)

def parseArrayElem : Nat → Parse Literal
  | 0 => outOfFuel
  | n + 1 => do
    let (tok, span) := (← get).cur
    match arrayElemOf tok with
    | some e =>
      bump
      return e
    | none =>
      match tok with
      | .keyword _ => return .symbol (← parseKeywordRun n none)
      | .lParen =>
        bump
        let elems ← parseArrayElems n
        closeParen "expected ')'"
        return .array elems
      | .litArrayOpen => parseArrayLiteral n
      | .byteArrayOpen => parseByteArrayLiteral n
      | .scaledLit .. => error span "scaled-decimal literals are not supported inside literal arrays (a ScaledDecimal is built at runtime — use a brace array instead)"
      | _ => error span "invalid literal array element"

def parseArrayLiteral : Nat → Parse Literal
  | 0 => outOfFuel
  | n + 1 => do
    enterLiteralSeq
    bump
    let elems ← parseArrayElems n
    if (← curTok) ≠ .rParen then error (← curSpan) "expected ')' to close array literal"
    exitLiteralSeq
    bump
    return .array elems

end

/-! ## Expressions -/

/-- The primaries that are one token, and whether it was `super`. -/
def primaryOf (tok : Tok) (span : Span) : Option (Expr × Bool) :=
  match tok with
  | .ident name =>
    some (if name = "self" then (.selfRef span, false)
      else if name = "super" then (.selfRef span, true)
      else if name = "nil" then (.lit .nil span, false)
      else if name = "true" then (.lit .true span, false)
      else if name = "false" then (.lit .false span, false)
      else (.var name span, false))
  | .intLit negative radix digits => some (.lit (intlitToLiteral negative radix digits) span, false)
  | .floatLit v => some (.lit (.float v) span, false)
  | .scaledLit negative intDigits fracDigits scale =>
    some (scaledToSend negative intDigits fracDigits scale span, false)
  | .charLit c => some (.lit (.char c) span, false)
  | .strLit s => some (.lit (.str s) span, false)
  | .symLit s => some (.lit (.symbol s) span, false)
  | _ => none

/-- `:` and a name, as often as they come. -/
def parseBlockParams : Nat → Parse (List String)
  | 0 => outOfFuel
  | n + 1 => do
    if (← curTok) ≠ .colon then return []
    bump
    let span ← curSpan
    let name ← expectIdent "expected a parameter name after ':'"
    checkNotReserved span name
    return name :: (← parseBlockParams n)

/-- Names that are not reserved, up to another token. -/
def parseNames : Nat → Parse (List String)
  | 0 => outOfFuel
  | n + 1 => do
    match (← get).cur with
    | (.ident name, span) =>
      checkNotReserved span name
      bump
      return name :: (← parseNames n)
    | _ => return []

def parseOptionalTemps (n : Nat) : Parse (List String) := do
  if (← curTok) ≠ .vBar then return []
  bump
  let temps ← parseNames n
  expect .vBar "expected closing '|' after temporaries"
  return temps

def parseUnaryChain : Nat → Expr → Bool → Parse (Expr × Bool)
  | 0, _, _ => outOfFuel
  | n + 1, e, isSuper => do
    match (← get).cur with
    | (.ident name, span) =>
      bump
      parseUnaryChain n (.send e name [] isSuper span) false
    | _ => return (e, isSuper)

mutual

def parsePrimary : Nat → Parse (Expr × Bool)
  | 0 => outOfFuel
  | n + 1 => do
    let (tok, span) := (← get).cur
    match primaryOf tok span with
    | some primary =>
      bump
      return primary
    | none =>
      match tok with
      | .lParen =>
        bump
        let e ← parseExpression n
        closeParen "expected ')'"
        return (e, false)
      | .lBracket => return (← parseBlock n, false)
      | .litArrayOpen => return (.lit (← parseArrayLiteral n) span, false)
      | .byteArrayOpen => return (.lit (← parseByteArrayLiteral n) span, false)
      | .lBrace => return (← parseDynArray n, false)
      | _ => error span "expected an expression"

/-- The binary messages after a unary expression. -/
def parseBinaryTail : Nat → Expr → Bool → Parse (Expr × Bool)
  | 0, _, _ => outOfFuel
  | n + 1, e, isSuper => do
    let (tok, span) := (← get).cur
    match (match tok with
      | .binarySel s => some s
      | .vBar => some "|"
      | _ => none) with
    | none => return (e, isSuper)
    | some sel =>
      bump
      let (rhs, rhsIsSuper) ← parsePrimary n
      let (rhs, _) ← parseUnaryChain n rhs rhsIsSuper
      parseBinaryTail n (.send e sel [rhs] isSuper span) false

def parseBinaryChain : Nat → Expr → Bool → Parse (Expr × Bool)
  | 0, _, _ => outOfFuel
  | n + 1, base, isSuper => do
    let (e, isSuper) ← parseUnaryChain n base isSuper
    parseBinaryTail n e isSuper

/-- The parts of a keyword message: the selector and the arguments. -/
def parseKeywordParts : Nat → Parse (String × List Expr)
  | 0 => outOfFuel
  | n + 1 => do
    match ← curTok with
    | .keyword k =>
      bump
      let (arg, argIsSuper) ← parsePrimary n
      let (arg, _) ← parseBinaryChain n arg argIsSuper
      let (sel, args) ← parseKeywordParts n
      return (k ++ sel, arg :: args)
    | _ => return ("", [])

def parseKeywordChain : Nat → Expr → Bool → Parse (Expr × Bool)
  | 0, _, _ => outOfFuel
  | n + 1, base, isSuper => do
    let (e, isSuper) ← parseBinaryChain n base isSuper
    match (← get).cur with
    | (.keyword _, span) =>
      let (sel, args) ← parseKeywordParts n
      return (.send e sel args isSuper span, false)
    | _ => return (e, isSuper)

def parseKeywordExpr : Nat → Parse Expr
  | 0 => outOfFuel
  | n + 1 => do
    let start ← curSpan
    let (base, isSuper) ← parsePrimary n
    let (e, isSuper) ← parseKeywordChain n base isSuper
    if isSuper then error start "'super' must be the receiver of a message send"
    return e

/-- The segments after the first. -/
def parseCascadeSegments : Nat → Span → Bool → Parse (List Expr)
  | 0, _, _ => outOfFuel
  | n + 1, rcvrSpan, isSuper => do
    if (← curTok) ≠ .semi then return []
    bump
    let start ← curSpan
    let (seg, _) ← parseKeywordChain n (.cascadeRcvr rcvrSpan) isSuper
    if let .cascadeRcvr _ := seg then error start "cascade segment has no message"
    return seg :: (← parseCascadeSegments n rcvrSpan isSuper)

def parseCascade : Nat → Parse Expr
  | 0 => outOfFuel
  | n + 1 => do
    let cascadeSpan ← curSpan
    let first ← parseKeywordExpr n
    if (← curTok) ≠ .semi then return first
    match first with
    | .send receiver selector args isSuper span =>
      let rcvrSpan := receiver.span
      let segments ← parseCascadeSegments n rcvrSpan isSuper
      return .cascade receiver
        (.send (.cascadeRcvr rcvrSpan) selector args isSuper span :: segments) cascadeSpan
    | other => error other.span "cascade requires a message send"

def parseExpression : Nat → Parse Expr
  | 0 => outOfFuel
  | n + 1 => do
    match (← get).cur with
    | (.ident name, span) =>
      if (← peek2) = .assign then
        checkNotReserved span name
        bump
        bump
        return .assign name (← parseExpression n) span
      else parseCascade n
    | _ => parseCascade n

def parseStatement : Nat → Parse Expr
  | 0 => outOfFuel
  | n + 1 => do
    match (← get).cur with
    | (.caret, span) =>
      bump
      return .ret (← parseExpression n) span
    | _ => parseExpression n

/-- The statements after one that was due. -/
def parseStatementList : Nat → Parse (List Expr)
  | 0 => outOfFuel
  | n + 1 => do
    let stmt ← parseStatement n
    if (← curTok) ≠ .period then return [stmt]
    bump
    if (← curTok) = .rBracket ∨ (← curTok) = .eof then return [stmt]
    return stmt :: (← parseStatementList n)

def parseStatements : Nat → Parse (List Expr)
  | 0 => outOfFuel
  | n + 1 => do
    if (← curTok) = .rBracket ∨ (← curTok) = .eof then return []
    parseStatementList n

def parseBlock : Nat → Parse Expr
  | 0 => outOfFuel
  | n + 1 => do
    let span ← curSpan
    bump
    let params ← if (← curTok) = .colon then do
        let params ← parseBlockParams n
        expect .vBar "expected '|' after block parameters"
        pure params
      else pure []
    let temps ← parseOptionalTemps n
    let body ← parseStatements n
    expect .rBracket "expected ']' to close block"
    return .block params temps body span 0

/-- The elements after one that was due. -/
def parseDynElems : Nat → Parse (List Expr)
  | 0 => outOfFuel
  | n + 1 => do
    let e ← parseExpression n
    if (← curTok) ≠ .period then return [e]
    bump
    if (← curTok) = .rBrace then return [e]
    return e :: (← parseDynElems n)

def parseDynArray : Nat → Parse Expr
  | 0 => outOfFuel
  | n + 1 => do
    let span ← curSpan
    bump
    let elems ← if (← curTok) = .rBrace then pure [] else parseDynElems n
    expect .rBrace "expected '\x7d' to close brace array"
    return .dynArray elems span

end

/-! ## Pragmas -/

/-- Up to the `>` that closes the pragma. -/
def skipPragmaBody : Nat → Nat → Parse Unit
  | 0, _ => outOfFuel
  | n + 1, depth => do
    match ← curTok with
    | .binarySel "<" =>
      bump
      skipPragmaBody n (depth + 1)
    | .binarySel ">" =>
      if depth = 1 then
        setPragmaMode false
        bump
      else
        bump
        skipPragmaBody n (depth - 1)
    | .eof => error (← curSpan) "unterminated pragma"
    | _ =>
      bump
      skipPragmaBody n depth

def expectFfiSym (ctx : String) : Parse String := do
  match ← curTok with
  | .symLit s =>
    bump
    return s
  | _ => error (← curSpan) s!"expected a symbol literal (#foo) after '{ctx}'"

def expectFfiBool (ctx : String) : Parse Bool := do
  match ← curTok with
  | .ident "true" =>
    bump
    return true
  | .ident "false" =>
    bump
    return false
  | _ => error (← curSpan) s!"expected 'true' or 'false' after '{ctx}'"

def expectFfiSymArray (n : Nat) (ctx : String) : Parse (List String) := do
  if (← curTok) ≠ .litArrayOpen then error (← curSpan) s!"expected '#(' after '{ctx}'"
  let span ← curSpan
  match ← parseArrayLiteral n with
  | .array elems => elems.mapM fun
    | .symbol s => pure s
    | _ => error span s!"'{ctx}' array elements must be bare shape symbols (g, f, h4, …)"
  | _ => return []

/-- The parts of an FFI pragma read so far. -/
structure FfiParts where
  function : Option String := none
  selector : Option String := none
  cls : Option String := none
  classSide : Option Bool := none
  ret : Option String := none
  args : Option (List String) := none

/-- `dup_check!`. -/
def dupCheck {α : Type} (start : Span) (slot : Option α) (name : String) : Parse Unit :=
  if slot.isSome then error start s!"duplicate '{name}' in FFI pragma" else pure ()

def parseFfiParts : Nat → Span → FfiParts → Parse FfiParts
  | 0, _, _ => outOfFuel
  | n + 1, start, parts => do
    match ← curTok with
    | .binarySel ">" => return parts
    | .keyword k =>
      bump
      let parts ← match k with
        | "function:" => do
          dupCheck start parts.function k
          let v ← expectFfiSym k
          pure { parts with function := some v }
        | "selector:" => do
          dupCheck start parts.selector k
          let v ← expectFfiSym k
          pure { parts with selector := some v }
        | "class:" => do
          dupCheck start parts.cls k
          let v ← expectFfiSym k
          pure { parts with cls := some v }
        | "classSide:" => do
          dupCheck start parts.classSide k
          let v ← expectFfiBool k
          pure { parts with classSide := some v }
        | "ret:" => do
          dupCheck start parts.ret k
          let v ← expectFfiSym k
          pure { parts with ret := some v }
        | "args:" => do
          dupCheck start parts.args k
          let v ← expectFfiSymArray n k
          pure { parts with args := some v }
        | other => error start s!"unknown keyword '{other}' in <primitive: FFI …>"
      parseFfiParts n start parts
    | _ => error (← curSpan) "expected a keyword part (function:/selector:/class:/classSide:/ret:/args:) in <primitive: FFI …>"

def parseFfiPragmaBody (n : Nat) (start : Span) : Parse FfiPragma := do
  let parts ← parseFfiParts n start {}
  setPragmaMode false
  bump
  match parts.ret with
  | none => error start "FFI pragma missing 'ret:'"
  | some ret =>
    let args := parts.args.getD []
    match parts.function, parts.selector with
    | some name, none => return .function name ret args
    | none, some selector =>
      match parts.cls with
      | none => error start "FFI 'selector:' pragma missing 'class:'"
      | some cls => return .selector selector cls (parts.classSide.getD false) ret args
    | some _, some _ =>
      error start "FFI pragma must not specify both 'function:' (Tier 1) and 'selector:' (Tier 2)"
    | none, none =>
      error start "FFI pragma needs 'function:' (Tier 1, POSIX) or 'selector:' (Tier 2, Cocoa)"

/-- The number after `primitive:`. -/
def parsePrimitiveId (start : Span) : Parse (BitVec 16) := do
  match ← curTok with
  | .intLit negative radix digits =>
    bump
    if (← curTok) ≠ .binarySel ">" then error start "expected '>' to close <primitive: N>"
    setPragmaMode false
    bump
    if negative then error start "primitive id must not be negative"
    let mag := intLitMagnitude radix digits
    let v := bytesValue (mag.take 8)
    if 8 < mag.length ∨ v = 0 ∨ 65535 < v then error start "primitive id out of range 1..=65535"
    return BitVec.ofNat 16 v
  | _ => error start "expected an integer after <primitive:"

def parseMethodPragma (n : Nat) : Parse (Option (BitVec 16) × Option FfiPragma) := do
  let start ← curSpan
  setPragmaMode true
  bump
  if (← curTok) = .keyword "primitive:" then
    bump
    if (← curTok) = .ident "FFI" then
      bump
      return (none, some (← parseFfiPragmaBody n start))
    return (some (← parsePrimitiveId start), none)
  skipPragmaBody n 1
  return (none, none)

/-- Names up to another token, reserved or not. -/
def parseIdents : Nat → Parse (List String)
  | 0 => outOfFuel
  | n + 1 => do
    match ← curTok with
    | .ident name =>
      bump
      return name :: (← parseIdents n)
    | _ => return []

def parseClassPragma (n : Nat) : Parse ClassPragma := do
  let start ← curSpan
  setPragmaMode true
  bump
  if (← curTok) = .keyword "indexable:" then
    bump
    if let .ident kind ← curTok then
      bump
      if (← curTok) = .binarySel ">" then
        setPragmaMode false
        bump
        match kind with
        | "oops" => return .indexable .oops
        | "bytes" => return .indexable .bytes
        | _ => error start s!"<indexable:> argument must be 'oops' or 'bytes', got '{kind}'"
    error start "malformed <indexable:> pragma"
  if (← curTok) = .keyword "classVars:" then
    bump
    let names ← parseIdents n
    if (← curTok) = .binarySel ">" then
      setPragmaMode false
      bump
      return .classVars names
    error start "malformed <classVars:> pragma"
  skipPragmaBody n 1
  return .ignored

/-! ## Methods and classes -/

/-- One parameter name of a method pattern. -/
def parseParam (msg : String) : Parse String := do
  let span ← curSpan
  let name ← expectIdent msg
  checkNotReserved span name
  return name

def parseKeywordPattern : Nat → Parse (String × List String)
  | 0 => outOfFuel
  | n + 1 => do
    match ← curTok with
    | .keyword k =>
      bump
      let param ← parseParam "expected a parameter name after keyword"
      let (sel, params) ← parseKeywordPattern n
      return (k ++ sel, param :: params)
    | _ => return ("", [])

def parsePattern (n : Nat) : Parse (String × List String) := do
  match ← curTok with
  | .ident name =>
    bump
    return (name, [])
  | .binarySel sel =>
    bump
    return (sel, [← parseParam "expected a parameter name after binary selector"])
  | .vBar =>
    bump
    return ("|", [← parseParam "expected a parameter name after '|'"])
  | .keyword _ => parseKeywordPattern n
  | _ => error (← curSpan) "invalid method pattern"

/-- The pragmas before a method's temporaries; the last of the primitive ones, of which there is
at most one. -/
def parseMethodPragmas : Nat → Option (BitVec 16) → Option FfiPragma →
    Parse (Option (BitVec 16) × Option FfiPragma)
  | 0, _, _ => outOfFuel
  | n + 1, primitive, ffi => do
    if (← curTok) ≠ .binarySel "<" then return (primitive, ffi)
    let span ← curSpan
    let (id, pragmaFfi) ← parseMethodPragma n
    if id.isSome ∨ pragmaFfi.isSome then
      if primitive.isSome ∨ ffi.isSome then error span "duplicate primitive pragma"
      parseMethodPragmas n id pragmaFfi
    else parseMethodPragmas n primitive ffi

/-- From the pragmas to the closing bracket. -/
def parseMethodRest (n : Nat) (selector : String) (params : List String) (classSide : Bool)
    (span : Span) (closeMsg : String) : Parse MethodNode := do
  let (primitive, ffi) ← parseMethodPragmas n none none
  let temps ← parseOptionalTemps n
  let body ← parseStatements n
  expect .rBracket closeMsg
  return ⟨selector, params, primitive, ffi, temps, body, classSide, span⟩

def parseMethod (n : Nat) (classSide : Bool) : Parse MethodNode := do
  let span ← curSpan
  let (selector, params) ← parsePattern n
  expect .lBracket "expected '[' to start method body"
  parseMethodRest n selector params classSide span "expected ']' to close method body"

/-- A `|` in a class body, already read: a method named `|`, or instance variables. -/
def parseBarItem (n : Nat) : Parse (MethodNode ⊕ List String) := do
  let isBinaryMethod ← match ← curTok with
    | .ident _ => do pure ((← peek2) = .lBracket : Bool)
    | _ => pure false
  if isBinaryMethod then
    let span ← curSpan
    let param ← parseParam "expected a parameter name"
    expect .lBracket "expected '['"
    return .inl (← parseMethodRest n "|" [param] false span "expected ']'")
  else
    let names ← parseNames n
    expect .vBar "expected closing '|' after instance variables"
    return .inr names

/-- `Name class >> pattern [ … ]`, at the name. -/
def parseClassMethod (n : Nat) (identName name : String) : Parse MethodNode := do
  let span ← curSpan
  bump
  bump
  if identName ≠ name then
    error span s!"'{identName} class' does not match the class being defined ('{name}')"
  if (← curTok) ≠ .binarySel ">>" then error (← curSpan) "expected '>>' after 'class'"
  bump
  parseMethod n true

def parseClassItems : Nat → ClassDefNode → Parse ClassDefNode
  | 0, _ => outOfFuel
  | n + 1, c => do
    let method (m : Parse MethodNode) : Parse ClassDefNode := do
      let m ← m
      parseClassItems n { c with methods := c.methods ++ [m] }
    match ← curTok with
    | .rBracket => return c
    | .eof => error (← curSpan) "unexpected end of input in class body"
    | .binarySel "<" =>
      if let .ident _ ← peek2 then method (parseMethod n false)
      else
        match ← parseClassPragma n with
        | .indexable i => parseClassItems n { c with indexable := some i }
        | .classVars names => parseClassItems n { c with classVars := c.classVars ++ names }
        | .ignored => parseClassItems n c
    | .vBar =>
      bump
      match ← parseBarItem n with
      | .inl m => parseClassItems n { c with methods := c.methods ++ [m] }
      | .inr names => parseClassItems n { c with instVars := c.instVars ++ names }
    | .ident identName =>
      if (← peek2) = .ident "class" then method (parseClassMethod n identName c.name)
      else method (parseMethod n false)
    | .binarySel _ | .keyword _ => method (parseMethod n false)
    | _ => error (← curSpan) "expected a class item"

def parseClassDef (n : Nat) : Parse ClassDefNode := do
  let span ← curSpan
  let superclass ← expectIdent "expected superclass name"
  expectKeyword "subclass:"
  let name ← expectIdent "expected new class name"
  expect .lBracket "expected '[' to start class body"
  let c ← parseClassItems n ⟨superclass, name, none, [], [], [], span⟩
  bump
  return c

/-! ## Top-level items -/

def new (input : List Char) : Except CompileError Parser := do
  let (cur, lx) ← (Lexer.new input).nextToken
  return { lx, cur, peeked := none, literalSeqDepth := 0 }

def atClassDef : Parse Bool := do
  match ← curTok with
  | .ident _ => return (← peek2) = .keyword "subclass:"
  | _ => return false

def parseTopItems : Nat → Parse (List TopItem)
  | 0 => outOfFuel
  | n + 1 => do
    if (← curTok) = .eof then return []
    let item ← if ← atClassDef then .classDef <$> parseClassDef n
      else do
        let stmt ← parseStatement n
        expect .period "expected '.' after top-level statement"
        pure (.doIt stmt)
    return item :: (← parseTopItems n)

def parseTopItem (n : Nat) : Parse (Option TopItem) := do
  if (← curTok) = .eof then return none
  if ← atClassDef then return some (.classDef (← parseClassDef n))
  let stmt ← parseStatement n
  if (← curTok) ≠ .eof then expect .period "expected '.' after statement"
  return some (.doIt stmt)

/-- A parse of a whole text. -/
def parse {α : Type} (x : Parse α) (input : List Char) : Option (Except CompileError α) :=
  match new input with
  | .error e => some (.error e)
  | .ok p => ((x.run p).run).map fun r => r.map Prod.fst

def parseFile (n : Nat) (input : List Char) : Option (Except CompileError (List TopItem)) :=
  parse (parseTopItems n) input

def parseOneTopItem (n : Nat) (input : List Char) :
    Option (Except CompileError (Option TopItem)) :=
  parse (parseTopItem n) input

end Parser

end WinVm.Frontend
