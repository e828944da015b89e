import Airl.Parser.Forms

/-! # Expressions

The part of `parser.rs` that reads expressions.
-/

namespace Airl.Parser

/-- `GENSYM_COUNTER`, and the diagnostics that are collected beside the result. -/
structure ParserState where
  gensyms : Nat
  diags : List Diagnostic
  deriving Repr, DecidableEq

/-- The state is kept when a form is refused. -/
abbrev Parse := ExceptT Diagnostic (StateM ParserState)

def exec {α : Type} (x : Parse α) (s : ParserState) : Except Diagnostic α × ParserState :=
  (x.run.run s).run

/-- From `s`, `x` gives `a` and leaves `s'`. -/
def Yields {α : Type} (x : Parse α) (s : ParserState) (a : α) (s' : ParserState) : Prop :=
  exec x s = (.ok a, s')

def ofExcept {α : Type} (x : Except Diagnostic α) : Parse α := ExceptT.mk (pure x)

/-- `diags.add`. -/
def report (d : Diagnostic) : Parse Unit := modify fun s => { s with diags := s.diags ++ [d] }

def gensymName (n : Nat) : String := "__d" ++ toString n

def gensym : Parse String :=
  modifyGet fun s => (gensymName s.gensyms, { s with gensyms := s.gensyms + 1 })

/-- The warning about what stands behind the last form that is read. -/
def ignoreExtra (form : String) (extra : List SExpr) : Parse Unit :=
  match extra with
  | [] => pure ()
  | item :: _ =>
    report (.warning (form ++ " has " ++ toString extra.length
      ++ " extra expression(s) after body that will be ignored") item.span)

variable (debug : SExpr → String)

def isMapPattern : SExpr → Bool
  | .list items _ => !items.isEmpty && items.all (fun p => p.asSymbol.isSome)
  | _ => false

def isLetBinding : SExpr → Bool
  | .list (head :: rest) _ =>
    if 3 ≤ rest.length && (rest.head?.bind SExpr.asSymbol == some ":") then true
    else
      match head with
      | .bracketList _ _ => 1 ≤ rest.length
      | .list items span => isMapPattern (.list items span) && 1 ≤ rest.length
      | .atom _ _ => false
  | _ => false

/-- The type of the bindings that a pattern gives. -/
def wildTy (span : Span) : AstType := ⟨.named "_", span⟩

def symbolRef (name : String) (span : Span) : Expr := ⟨.symbolRef name, span⟩

/-- The bindings of the elements that a list pattern names; `gs` holds the list. -/
def elementBindings (span : Span) (gs : String) (idx : Nat) :
    List SExpr → Except Diagnostic (List LetBinding)
  | [] => .ok []
  | item :: items =>
    if item.asSymbol = some "&" then
      match items with
      | [] => .error (.error "& in let pattern requires a name after it" span)
      | rest :: items => do
          let restName ← expectSymbol debug rest
          let more ← elementBindings span gs idx items
          .ok (⟨restName, wildTy span,
            ⟨.fnCall (symbolRef "drop" span) [⟨.intLit (.ofNat idx), span⟩, symbolRef gs span],
              span⟩, span⟩ :: more)
    else do
      let elemName ← expectSymbol debug item
      let more ← elementBindings span gs (idx + 1) items
      .ok (⟨elemName, wildTy span,
        ⟨.fnCall (symbolRef "at" span) [symbolRef gs span, ⟨.intLit (.ofNat idx), span⟩], span⟩,
        span⟩ :: more)

/-- `parse_list_destructure`, once the value is found. -/
def destructureList (patternItems : List SExpr) (span : Span) (value : Parse Expr) :
    Parse (List LetBinding) := do
  let gs ← gensym
  let valueExpr ← value
  let elements ← ofExcept (elementBindings debug span gs 0 patternItems)
  return ⟨gs, wildTy span, valueExpr, span⟩ :: elements

def keyBindings (span : Span) (gs : String) :
    List SExpr → Except Diagnostic (List LetBinding)
  | [] => .ok []
  | item :: items => do
      let keyName ← expectSymbol debug item
      let more ← keyBindings span gs items
      .ok (⟨keyName, wildTy span,
        ⟨.fnCall (symbolRef "map-get" span) [symbolRef gs span, ⟨.strLit keyName, span⟩], span⟩,
        span⟩ :: more)

/-- `parse_map_destructure`, once the value is found. -/
def destructureMap (patternItems : List SExpr) (span : Span) (value : Parse Expr) :
    Parse (List LetBinding) := do
  let gs ← gensym
  let valueExpr ← value
  let keys ← ofExcept (keyBindings debug span gs patternItems)
  return ⟨gs, wildTy span, valueExpr, span⟩ :: keys

/-- What looks like a binding that lacks its type, at the place of the body. -/
def malformedBinding : SExpr → Option Diagnostic
  | .list (head :: second :: rest) span =>
    match head.asSymbol with
    | some name =>
      if rest.length ≤ 1 ∧ second.asSymbol ≠ some ":" then
        some (.error ("let binding '" ++ name ++ "' is missing type annotation — use (let ("
          ++ name ++ " : Type value) body)") span)
      else none
    | none => none
  | _ => none

def ownershipKeyword (item : SExpr) : Option Ownership :=
  match item.asSymbol with
  | some "own" => some .own
  | some "ref" => some .ref
  | some "mut" => some .mut
  | some "copy" => some .copy
  | _ => none

/-- A parameter up to its type, and the items behind the type. -/
def parseParamHead (items : List SExpr) (span : Span) :
    Except Diagnostic (Ownership × String × AstType × List SExpr) :=
  if items.length < 3 then .error (.error "param requires at least (name : Type)" span)
  else
    let ownership := items.head?.bind ownershipKeyword
    match if ownership.isSome then items.tail else items with
    | [] => .error (.error "expected ':' in param" span)
    | nameItem :: rest => do
        let name ← expectSymbol debug nameItem
        match rest with
        | [] => .error (.error "expected ':' in param" span)
        | colon :: rest =>
          if colon.asSymbol ≠ some ":" then .error (.error "expected ':' in param" span)
          else if rest.isEmpty then .error (.error "expected type in param" span)
          else do
            let (ty, rest) ← parseTypeFromSlice rest
            .ok (ownership.getD .default, name, ty, rest)

/-- `parse_param` of a list; `exprAt` reads the form at an index. -/
def paramWith (items : List SExpr) (span : Span) (exprAt : Nat → Parse (Option Expr)) :
    Parse Param := do
  let (ownership, name, ty, rest) ← ofExcept (parseParamHead debug items span)
  let default_ ← exprAt (items.length - rest.length)
  return ⟨ownership, name, ty, default_, span⟩

/-- The parameter of a quantifier; `name` is the quantifier. -/
def parseQuantifierParam (name : String) (span : Span) : SExpr → Except Diagnostic Param
  | .bracketList (nameItem :: colon :: ty :: _) pspan => do
      let pname ← expectSymbol debug nameItem
      if colon.asSymbol ≠ some ":" then .error (.error "expected ':' in parameter" pspan)
      else do
        let tyName ← expectSymbol debug ty
        .ok ⟨.default, pname, ⟨.named tyName, pspan⟩, none, pspan⟩
  | .bracketList _ pspan => .error (.error (name ++ " parameter requires [name : Type]") pspan)
  | _ => .error (.error (name ++ " requires [name : Type] parameter list") span)

def quantifierName (isForall : Bool) : String := if isForall then "forall" else "exists"

def quantifierKind (isForall : Bool) (param : Param) (whereClause : Option Expr) (body : Expr) :
    ExprKind :=
  if isForall then .forall param whereClause body else .exists param whereClause body

def isWhere : SExpr → Bool
  | .list (head :: _) _ => head.asSymbol == some "where"
  | _ => false

/-- What the head of a list makes of it. -/
inductive Form where
  | ite
  | «let»
  | «do»
  | «match»
  | fn
  | «try»
  | quantifier (isForall : Bool)
  | thread (last : Bool)
  | variantCtor (name : String)
  | fnCall
  deriving Repr, DecidableEq

def formOf : SExpr → Form
  | .atom (.symbol s) _ =>
    if s = "if" then .ite
    else if s = "let" then .let
    else if s = "do" then .do
    else if s = "match" then .match
    else if s = "fn" then .fn
    else if s = "try" then .try
    else if s = "forall" then .quantifier true
    else if s = "exists" then .quantifier false
    else if s = "->>" then .thread true
    else if isCapitalized s then .variantCtor s
    else .fnCall
  | .atom .arrow _ => .thread false
  | _ => .fnCall

mutual

def parseExpr : SExpr → Parse Expr
  | .atom kind span => ofExcept (parseAtomExpr kind span)
  | .bracketList items span => do
      let exprs ← parseExprs items
      return ⟨.listLit exprs, span⟩
  | .list [] span => return ⟨.nilLit, span⟩
  | .list (head :: rest) span =>
    match formOf head with
    | .ite => parseIfExpr span rest
    | .let => parseLetExpr span rest
    | .do => do
        let exprs ← parseExprs rest
        return ⟨.do exprs, span⟩
    | .match => parseMatchExpr span rest
    | .fn => parseLambdaExpr span rest
    | .try => parseTryExpr span rest
    | .quantifier isForall => parseQuantifierExpr isForall span rest
    | .thread last => parseThread last span rest
    | .variantCtor name => do
        let args ← parseExprs rest
        return ⟨.variantCtor name args, span⟩
    | .fnCall => do
        let callee ← parseExpr head
        let args ← parseExprs rest
        return ⟨.fnCall callee args, span⟩

def parseExprs : List SExpr → Parse (List Expr)
  | [] => return []
  | item :: items => do
      let e ← parseExpr item
      let es ← parseExprs items
      return e :: es

def parseIfExpr (span : Span) : List SExpr → Parse Expr
  | [cond, then_, else_] => do
      let cond ← parseExpr cond
      let then_ ← parseExpr then_
      let else_ ← parseExpr else_
      return ⟨.ite cond then_ else_, span⟩
  | items =>
    throw (.error ("if requires exactly 3 subforms, found " ++ toString items.length) span)

def parseLetExpr (span : Span) : List SExpr → Parse Expr
  | [] => throw (.error "let requires at least a body" span)
  | item :: items =>
    if isLetBinding item then do
      let bindings ← parseLetBindingsFrom item
      parseLetRest span bindings items
    else
      match malformedBinding item with
      | some d => throw d
      | none => do
          let body ← parseExpr item
          ignoreExtra "let" items
          return ⟨.let [] body, span⟩

/-- The rest of a `let` behind its first bindings. -/
def parseLetRest (span : Span) (bindings : List LetBinding) : List SExpr → Parse Expr
  | [] => throw (.error "let requires a body expression" span)
  | item :: items =>
    if isLetBinding item then do
      let newBindings ← parseLetBindingsFrom item
      parseLetRest span (bindings ++ newBindings) items
    else do
      let body ← parseExpr item
      ignoreExtra "let" items
      return ⟨.let bindings body, span⟩

def parseLetBindingsFrom : SExpr → Parse (List LetBinding)
  | .list [] span => throw (.error "expected let binding list" span)
  | .list (head :: rest) span =>
    match head with
    | .bracketList patternItems _ => parseListDestructure patternItems span rest
    | .list patternItems pspan =>
      if isMapPattern (.list patternItems pspan) then
        parseMapDestructure patternItems span rest
      else parseTypedBinding (.list patternItems pspan) span rest
    | .atom kind aspan => parseTypedBinding (.atom kind aspan) span rest
  | sexpr => throw (.error "expected let binding list" sexpr.span)

/-- `(name : Type value)`. -/
def parseTypedBinding (nameItem : SExpr) (span : Span) : List SExpr → Parse (List LetBinding)
  | _ :: ty :: value :: _ => do
      let name ← ofExcept (expectSymbol debug nameItem)
      let ty ← ofExcept (parseType ty)
      let value ← parseExpr value
      return [⟨name, ty, value, span⟩]
  | _ => throw (.error "let binding requires (name : Type value)" span)

def parseListDestructure (patternItems : List SExpr) (span : Span) :
    List SExpr → Parse (List LetBinding)
  | [] => throw (.error "list destructure binding missing value" span)
  | first :: rest =>
    match rest with
    | ty :: value :: _ =>
      if first.asSymbol = some ":" then do
        let _ ← ofExcept (parseType ty)
        destructureList debug patternItems span (parseExpr value)
      else destructureList debug patternItems span (parseExpr first)
    | _ => destructureList debug patternItems span (parseExpr first)

def parseMapDestructure (patternItems : List SExpr) (span : Span) :
    List SExpr → Parse (List LetBinding)
  | [] => throw (.error "map destructure binding missing value" span)
  | value :: _ => destructureMap debug patternItems span (parseExpr value)

def parseMatchExpr (span : Span) : List SExpr → Parse Expr
  | [] => throw (.error "match requires a scrutinee" span)
  | scrutinee :: rest => do
      let scrutinee ← parseExpr scrutinee
      if rest.length % 2 ≠ 0 then
        throw (.error "match arms must come in pattern/body pairs" span)
      else do
        let arms ← parseArms rest
        return ⟨.match scrutinee arms, span⟩

def parseArms : List SExpr → Parse (List MatchArm)
  | pat :: body :: rest => do
      let pattern ← ofExcept (parsePattern debug pat)
      let bodyExpr ← parseExpr body
      let arms ← parseArms rest
      return ⟨pattern, bodyExpr, pat.span.merge body.span⟩ :: arms
  | _ => return []

def parseLambdaExpr (span : Span) : List SExpr → Parse Expr
  | params :: body :: extra => do
      let params ← parseLambdaParams params
      let body ← parseExpr body
      ignoreExtra "fn" extra
      return ⟨.lambda params body, span⟩
  | _ => throw (.error "fn requires params and body" span)

def parseLambdaParams : SExpr → Parse (List Param)
  | .bracketList items _ => parseLambdaItems items
  | sexpr => throw (.error "expected bracket list for parameters" sexpr.span)

def parseLambdaItems : List SExpr → Parse (List Param)
  | [] => return []
  | item :: items => do
      let param ← parseLambdaItem item
      let params ← parseLambdaItems items
      return param :: params

def parseLambdaItem : SExpr → Parse Param
  | .atom (.symbol s) span => return ⟨.default, s, wildTy span, none, span⟩
  | .list items span => paramWith debug items span fun idx => parseExprAt idx items
  | item => throw (.error "expected parameter" item.span)

/-- The expression at an index, if there is one. -/
def parseExprAt (idx : Nat) : List SExpr → Parse (Option Expr)
  | [] => return none
  | item :: items =>
    match idx with
    | 0 => do
        let e ← parseExpr item
        return some e
    | idx + 1 => parseExprAt idx items

def parseTryExpr (span : Span) : List SExpr → Parse Expr
  | [inner] => do
      let inner ← parseExpr inner
      return ⟨.try inner, span⟩
  | _ => throw (.error "try requires exactly one expression" span)

def parseQuantifierExpr (isForall : Bool) (span : Span) : List SExpr → Parse Expr
  | paramItem :: second :: rest => do
      let param ← ofExcept (parseQuantifierParam debug (quantifierName isForall) span paramItem)
      match rest with
      | body :: _ =>
        if isWhere second then do
          let guard_ ← parseWhere span second
          let body ← parseExpr body
          return ⟨quantifierKind isForall param (some guard_) body, span⟩
        else do
          let body ← parseExpr second
          return ⟨quantifierKind isForall param none body, span⟩
      | [] => do
          let body ← parseExpr second
          return ⟨quantifierKind isForall param none body, span⟩
  | _ =>
    throw (.error (quantifierName isForall ++ " requires a parameter list and body") span)

def parseWhere (span : Span) : SExpr → Parse Expr
  | .list [_, guard_] _ => parseExpr guard_
  | _ => throw (.error "where clause requires exactly one expression" span)

/-- `parse_thread_last` and `parse_thread_first`. -/
def parseThread (last : Bool) (span : Span) : List SExpr → Parse Expr
  | [] => throw (.error ((if last then "->>" else "->") ++ " requires at least one argument") span)
  | seed :: steps => do
      let acc ← parseExpr seed
      threadSteps last acc steps

def threadSteps (last : Bool) (acc : Expr) : List SExpr → Parse Expr
  | [] => return acc
  | step :: steps => do
      let acc ← threadStep last acc step
      threadSteps last acc steps

def threadStep (last : Bool) (acc : Expr) : SExpr → Parse Expr
  | .atom (.symbol s) span => return ⟨.fnCall (symbolRef s span) [acc], span⟩
  | .list (head :: args) span => do
      let f ← parseExpr head
      let extra ← parseExprs args
      return ⟨.fnCall f (if last then extra ++ [acc] else acc :: extra), span⟩
  | step => throw (.error "threading macro step must be a symbol or list" step.span)

end

def parseParam : SExpr → Parse Param
  | .list items span => paramWith debug items span fun idx => parseExprAt debug idx items
  | sexpr => throw (.error "expected parameter list" sexpr.span)

end Airl.Parser
