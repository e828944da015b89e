import Airl.Agent.RoundTrip

/-! # The client in the virtual machine

`agent_client.rs` writes tasks and reads results with code of its own: it escapes nothing,
and it reads any list whose fields it can find. What the agents' own reader accepts, it
reads in the same way.
-/

namespace Airl.Agent

open Airl.Syntax

section Client

variable (F : FloatFormat)

/-- `format_task`. -/
def formatTask (id fnName : List Char) (args : List Datum) : List Char :=
  "(task \"".toList ++ id ++ "\" :from \"self\" :call \"".toList ++ fnName ++ "\" :args [".toList ++
    [' '].intercalate (args.map (display F)) ++ "])".toList

/-- What is known of a result while its fields are read. -/
structure Response where
  statusComplete : Bool
  payload : Option Datum
  errorMsg : Option (List Char)

/-- A field whose value is missing or of the wrong kind is passed over. -/
def responseFields (r : Response) (items : List SExpr) : Response :=
  match items with
  | [] => r
  | item :: items =>
    if item.asKeyword = some "status".toList then
      match items with
      | [] => r
      | status :: rest =>
        match status.asKeyword with
        | some s => responseFields { r with statusComplete := s = "complete".toList } rest
        | none => responseFields r rest
    else if item.asKeyword = some "payload".toList then
      match items with
      | [] => r
      | expr :: rest => responseFields { r with payload := some (sexprToValue expr) } rest
    else if item.asKeyword = some "message".toList then
      match items with
      | [] => r
      | .atom (.str s) :: rest => responseFields { r with errorMsg := some s } rest
      | _ :: rest => responseFields r rest
    else responseFields r items

/-- `parse_result_message`; no payload stands for the unit. -/
def parseResultMessage (parse : ParseFloat) (response : List Char) :
    Except (List Char) (Option Datum) :=
  match lexAndParse parse response with
  | .error e => .error e.toList
  | .ok (.list items :: _) =>
    let r := responseFields ⟨false, none, none⟩ items
    if r.statusComplete then .ok r.payload else .error (r.errorMsg.getD "unknown error".toList)
  | .ok (_ :: _) => .error "expected list".toList
  | .ok [] => .error "empty response".toList

variable {F}

theorem responseFields_of_resultFields {msg m : ResultMessage} {items : List SExpr}
    (h : resultFields msg items = .ok m) :
    responseFields ⟨msg.success, msg.payload, msg.error⟩ items =
      ⟨m.success, m.payload, m.error⟩ := by
  fun_induction resultFields msg items with
  | case1 =>
    cases h
    rfl
  | case10 msg item items hstatus hpayload hmessage ih =>
    rw [responseFields.eq_def]
    dsimp only
    rw [if_neg hstatus, if_neg hpayload, if_neg hmessage]
    exact ih h
  | _ => simp_all [responseFields]

theorem responseFields_of_resultOfList {r : ResultMessage} {items : List SExpr}
    (h : resultOfList items = .ok r) :
    responseFields ⟨false, none, none⟩ items = ⟨r.success, r.payload, r.error⟩ := by
  have hskip : ∀ {e : SExpr} {es}, e.asKeyword = none →
      responseFields ⟨false, none, none⟩ (e :: es) = responseFields ⟨false, none, none⟩ es := by
    intro e es he
    rw [responseFields.eq_def]
    simp [he]
  cases items with
  | nil => cases h
  | cons head tail =>
    by_cases hform : head.asSymbol = some "result".toList
    · have hhead : head.asKeyword = none := by
        cases head with
        | atom kind =>
          cases kind with
          | symbol s => rfl
          | _ => cases hform
        | _ => cases hform
      have hfields : ∃ id rest, tail = .atom (.str id) :: rest ∧
          resultFields ⟨id, false, none, none⟩ rest = .ok r := by
        unfold resultOfList at h
        rw [if_neg (by simpa using hform)] at h
        dsimp only [List.tail_cons] at h
        split at h
        · next id rest => exact ⟨id, rest, rfl, h⟩
        · cases h
        · cases h
      obtain ⟨id, rest, rfl, hrest⟩ := hfields
      rw [hskip hhead, hskip rfl]
      exact responseFields_of_resultFields hrest
    · unfold resultOfList at h
      rw [if_pos (by simpa using hform)] at h
      cases h

theorem parseResultMessage_of_parseResult {parse : ParseFloat} {input : List Char}
    {r : ResultMessage} (h : parseResult parse input = .ok r) :
    parseResultMessage parse input =
      if r.success then .ok r.payload else .error (r.error.getD "unknown error".toList) := by
  obtain ⟨items, es, hexprs, hresult⟩ := (@parseResult_eq_ok_iff ⟨fun _ => [], parse⟩ input r).mp h
  rw [parseResultMessage, show lexAndParse parse input = _ from hexprs]
  dsimp only
  rw [responseFields_of_resultOfList hresult]

theorem formatTask_eq {id fnName : List Char} {args : List Datum} (hid : IsPlain id)
    (hfnName : IsPlain fnName) (hargs : ∀ s, .str s ∈ args → IsPlain s) :
    formatTask F id fnName args = serializeTask F ⟨id, "self".toList, fnName, args⟩ := by
  have hself : escapeStr "self".toList = "self".toList := by decide
  have hwire : args.map (valueToWire F) = args.map (display F) := by
    refine List.map_congr_left fun v hv => ?_
    cases v with
    | str s => rw [valueToWire, escapeStr_of_isPlain (hargs s hv), display]
    | _ => simp [valueToWire]
  have hmiddle : "\" :from \"self\" :call \"".toList =
      "\" :from \"".toList ++ ("self".toList ++ "\" :call \"".toList) := by decide
  unfold formatTask serializeTask
  dsimp only
  rw [escapeStr_of_isPlain hid, escapeStr_of_isPlain hfnName, hself, hwire, hmiddle]
  simp only [List.append_assoc]

/-- The two sides understand each other: the client reads every clean result that an agent
writes, and an agent reads every clean task of the client's without marks to be escaped. -/
theorem client_agrees (hF : F.Lawful) (r : ResultMessage) (id fnName : List Char)
    (args : List Datum) :
    (r.Clean → parseResultMessage F.parse (serializeResult F r) =
      if r.success then .ok r.payload else .error (r.error.getD "unknown error".toList)) ∧
    (IsPlain id → IsPlain fnName → (∀ s, .str s ∈ args → IsPlain s) →
      (parseTask F.parse (formatTask F id fnName args) = .ok ⟨id, "self".toList, fnName, args⟩ ↔
        TaskMessage.Clean ⟨id, "self".toList, fnName, args⟩)) := by
  refine ⟨fun hr => ?_, fun hid hfnName hargs => ?_⟩
  · exact parseResultMessage_of_parseResult ((parseResult_serializeResult_iff hF r).mpr hr)
  · rw [formatTask_eq hid hfnName hargs]
    exact parseTask_serializeTask_iff hF _

theorem client_agrees_sample : parseResultMessage numberedFloats.parse
      (serializeResult numberedFloats ⟨['1'], false, none, some ['e']⟩) = .error ['e'] ∧
    parseTask numberedFloats.parse (formatTask numberedFloats ['1'] ['f'] [.str ['x'], .nil]) =
      .ok ⟨['1'], "self".toList, ['f'], [.str ['x'], .nil]⟩ := by
  obtain ⟨hresult, htask⟩ := client_agrees numberedFloats_lawful
    ⟨['1'], false, none, some ['e']⟩ ['1'] ['f'] [.str ['x'], .nil]
  refine ⟨hresult ⟨by decide, by simp, fun _ => ⟨rfl, _, rfl, by decide⟩⟩, ?_⟩
  refine (htask (by decide) (by decide) fun s hs => ?_).mpr
    ⟨by decide, by decide, by decide, fun v hv => ?_, by decide, by decide⟩
  · have hx : s = ['x'] := by simpa using hs
    subst hx
    decide
  · have hshort : IsShort ['x'] := by decide
    rcases List.mem_pair.mp hv with rfl | rfl
    · exact hshort
    · simp [Datum.CleanArg, Datum.Clean]

end Client

end Airl.Agent
