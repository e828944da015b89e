import Airl.Parser.Expressions

/-! # Definitions

`parse_defn`: a name and a run of clauses, each a keyword with the form behind it.
-/

namespace Airl

inductive VerifyLevel where
  | checked
  | proven
  | trusted
  deriving Repr, DecidableEq

instance : Inhabited VerifyLevel := ⟨.proven⟩

inductive ExecTarget where
  | cpu
  | gpu
  | any
  | agent (name : String)
  deriving Repr, DecidableEq

inductive Priority where
  | low
  | normal
  | high
  | critical
  deriving Repr, DecidableEq

/-- The whole of the source's `FnDef`. -/
structure Defn extends FnDef where
  intent : Option String
  isPure : Bool
  isTotal : Bool
  executeOn : Option ExecTarget
  priority : Option Priority
  isPublic : Bool
  /-- `none` inherits from the module. -/
  verify : Option VerifyLevel
  span : Span

namespace Parser

variable (debug : SExpr → String)

def parseVerifyLevel (sexpr : SExpr) : Except Diagnostic VerifyLevel := do
  let s ← expectSymbol debug sexpr
  if s = "checked" then .ok .checked
  else if s = "proven" then .ok .proven
  else if s = "trusted" then .ok .trusted
  else .error (.error ("unknown verify level: " ++ s) sexpr.span)

def parseExecTarget (sexpr : SExpr) : Except Diagnostic ExecTarget := do
  let s ← expectSymbol debug sexpr
  if s = "cpu" then .ok .cpu
  else if s = "gpu" then .ok .gpu
  else if s = "any" then .ok .any
  else .ok (.agent s)

def parsePriority (sexpr : SExpr) : Except Diagnostic Priority := do
  let s ← expectSymbol debug sexpr
  if s = "low" then .ok .low
  else if s = "normal" then .ok .normal
  else if s = "high" then .ok .high
  else if s = "critical" then .ok .critical
  else .error (.error ("unknown priority: " ++ s) sexpr.span)

def makeValidCall (name : String) (span : Span) : Expr :=
  ⟨.fnCall (symbolRef "valid" span) [symbolRef name span], span⟩

/-- The conditions that the value of a contract clause writes. -/
def conditionsOf : SExpr → List SExpr
  | .bracketList items _ => items
  | sexpr => [sexpr]

def parseExprList (sexpr : SExpr) : Parse (List Expr) := parseExprs debug (conditionsOf sexpr)

def parseParams : List SExpr → Parse (List Param)
  | [] => return []
  | item :: items => do
      let param ← parseParam debug item
      let params ← parseParams items
      return param :: params

def isArrow : SExpr → Bool
  | .atom .arrow _ => true
  | _ => false

def unitTy (span : Span) : AstType := ⟨.named "Unit", span⟩

def parseSig : SExpr → Parse (List Param × AstType)
  | .bracketList items span => do
      let params ← parseParams debug (items.takeWhile (!isArrow ·))
      match (items.dropWhile (!isArrow ·)).tail with
      | [] => return (params, unitTy span)
      | returnItems => do
          let (ty, _) ← ofExcept (parseTypeFromSlice returnItems)
          return (params, ty)
  | sexpr => throw (.error "expected bracket list for :sig" sexpr.span)

/-- The keywords that take the form behind them. -/
inductive Clause where
  | sig
  | intent
  | requires
  | ensures
  | invariant
  | pre
  | post
  | body
  | executeOn
  | priority
  | verify
  deriving Repr, DecidableEq

inductive ClauseKeyword where
  | valued (clause : Clause)
  | pure
  | total
  | unknown
  deriving Repr, DecidableEq

def clauseKeyword (kw : String) : ClauseKeyword :=
  if kw = "sig" then .valued .sig
  else if kw = "intent" then .valued .intent
  else if kw = "requires" then .valued .requires
  else if kw = "ensures" then .valued .ensures
  else if kw = "invariant" then .valued .invariant
  else if kw = "pure" then .pure
  else if kw = "total" then .total
  else if kw = "pre" then .valued .pre
  else if kw = "post" then .valued .post
  else if kw = "body" then .valued .body
  else if kw = "execute-on" then .valued .executeOn
  else if kw = "priority" then .valued .priority
  else if kw = "verify" then .valued .verify
  else .unknown

/-- The error where the form behind the keyword is missing. -/
def Clause.missing : Clause → String
  | .sig => "expected signature after :sig"
  | .intent => "expected string after :intent"
  | .requires => "expected list after :requires"
  | .ensures => "expected list after :ensures"
  | .invariant => "expected list after :invariant"
  | .pre => "expected list after :pre"
  | .post => "expected list after :post"
  | .body => "expected expression after :body"
  | .executeOn => "expected target after :execute-on"
  | .priority => "expected priority after :priority"
  | .verify => "expected verify level after :verify"

/-- What the loop has collected. -/
structure Clauses where
  params : List Param
  returnType : AstType
  intent : Option String
  requires : List Expr
  ensures : List Expr
  invariants : List Expr
  isPure : Bool
  isTotal : Bool
  body : Option Expr
  executeOn : Option ExecTarget
  priority : Option Priority
  verify : Option VerifyLevel

def Clauses.initial (span : Span) : Clauses where
  params := []
  returnType := unitTy span
  intent := none
  requires := []
  ensures := []
  invariants := []
  isPure := false
  isTotal := false
  body := none
  executeOn := none
  priority := none
  verify := none

def parseClause (acc : Clauses) (value : SExpr) : Clause → Parse Clauses
  | .sig => do
      let (params, ret) ← parseSig debug value
      return { acc with params := params, returnType := ret }
  | .intent => do
      let s ← ofExcept (expectString debug value)
      return { acc with intent := some s }
  | .requires => do
      let es ← parseExprList debug value
      return { acc with requires := es }
  | .ensures => do
      let es ← parseExprList debug value
      return { acc with ensures := es }
  | .invariant => do
      let es ← parseExprList debug value
      return { acc with invariants := es }
  | .pre => do
      let es ← parseExprList debug value
      return { acc with requires := acc.requires ++ es }
  | .post => do
      let es ← parseExprList debug value
      return { acc with ensures := acc.ensures ++ es }
  | .body => do
      let e ← parseExpr debug value
      return { acc with body := some e }
  | .executeOn => do
      let target ← ofExcept (parseExecTarget debug value)
      return { acc with executeOn := some target }
  | .priority => do
      let p ← ofExcept (parsePriority debug value)
      return { acc with priority := some p }
  | .verify => do
      let level ← ofExcept (parseVerifyLevel debug value)
      return { acc with verify := some level }

def parseClauses (span : Span) (acc : Clauses) : List SExpr → Parse Clauses
  | [] => return acc
  | item :: items =>
    match item.asKeyword with
    | none => parseClauses span acc items
    | some kw =>
      match clauseKeyword kw with
      | .pure => parseClauses span { acc with isPure := true } items
      | .total => parseClauses span { acc with isTotal := true, isPure := true } items
      | .unknown => do
          report (.warning ("unknown keyword :" ++ kw ++ " in defn") item.span)
          parseClauses span acc items
      | .valued clause =>
        match items with
        | [] => throw (.error clause.missing span)
        | value :: items => do
            let acc ← parseClause debug acc value clause
            parseClauses span acc items

/-- What `:pure` and `:total` require of the parameters. -/
def generatedRequires (span : Span) (isPure : Bool) (params : List Param) : List Expr :=
  if isPure then params.map fun p => makeValidCall p.name span else []

/-- What `:pure` and `:total` ensure where no condition is left. -/
def generatedEnsures (span : Span) (isPure isEmpty : Bool) : List Expr :=
  if isPure && isEmpty then [makeValidCall "result" span] else []

/-- The contract lists are expanded. -/
def Clauses.expand (span : Span) (acc : Clauses) : Clauses :=
  { acc with
    requires := generatedRequires span acc.isPure acc.params ++ acc.requires
    ensures := acc.ensures ++ generatedEnsures span acc.isPure acc.ensures.isEmpty }

def checkContracts (name : String) (span : Span) (acc : Clauses) : Parse Unit :=
  if acc.requires.isEmpty && acc.ensures.isEmpty then
    report (.error ("function '" ++ name ++ "' must have :requires and/or :ensures contracts") span)
  else pure ()

def checkIntent (name : String) (span : Span) (acc : Clauses) : Parse Unit :=
  if acc.intent.isNone then
    report (.warning ("function '" ++ name ++ "' is missing :intent") span)
  else pure ()

def Clauses.toDefn (acc : Clauses) (name : String) (isPublic : Bool) (span : Span) : Defn where
  name := name
  params := acc.params
  returnType := acc.returnType
  requires := acc.requires
  ensures := acc.ensures
  invariants := acc.invariants
  body := acc.body.getD ⟨.nilLit, span⟩
  intent := acc.intent
  isPure := acc.isPure
  isTotal := acc.isTotal
  executeOn := acc.executeOn
  priority := acc.priority
  isPublic := isPublic
  verify := acc.verify
  span := span

/-- Is the first item `:pub`? -/
def startsPublic (items : List SExpr) : Bool := items.head?.bind SExpr.asKeyword == some "pub"

/-- The items that the loop goes over. -/
def clauseItems (items : List SExpr) : List SExpr :=
    if startsPublic items then items.tail else items

def parseDefn (span : Span) : List SExpr → Parse Defn
  | [] => throw (.error "defn requires a name" span)
  | nameItem :: items => do
      let name ← ofExcept (expectSymbol debug nameItem)
      let acc ← parseClauses debug span (.initial span) (clauseItems items)
      let acc := acc.expand span
      checkContracts name span acc
      checkIntent name span acc
      return acc.toDefn name (startsPublic items) span

end Parser

end Airl
