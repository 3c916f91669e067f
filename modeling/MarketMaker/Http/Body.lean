import MarketMaker.Http.Reply
import MarketMaker.Json.Reader
import MarketMaker.Text.Encoding

/-! Bodies of requests. A body is JSON in any of the encodings of its standard, and the zero bytes
at its start tell which one it is. -/

namespace MarketMaker.Http

def dropByteOrderMark (text : String) : String :=
  match text.toList with
  | '\uFEFF' :: rest => String.ofList rest
  | _ => text

/-- The code points of a body, if its bytes stand for some. -/
def bodyText? (body : String) : Option Text.CodePoints :=
  let bytes := body.toList.flatMap Text.utf8Bytes
  match Text.Encoding.ofBytes bytes with
  | .utf8 => some (dropByteOrderMark body)
  | encoding => encoding.decode? bytes

/-- A text as a string. Inside a JSON text a surrogate and its escape stand for the same. -/
def withEscapes (t : Text.CodePoints) : String :=
  String.ofList (t.codes.flatMap fun n =>
    match Text.charOf? n with
    | some c => [c]
    | none => '\\' :: 'u' :: Text.hexDigits 4 n)

def nestingLimit : Nat := 965

def unreadableBody : Reply := .detail 400 "There was an error parsing the body"

def malformedBody : Reply :=
  ⟨422, .json (.object [("detail", .list [.object [("type", .text "json_invalid")]])])⟩

/-- What a body holds, nothing if it is empty, or the reply to one that cannot be read. -/
def parseBody (body : String) : Except Reply (Option Json) :=
  if body = "" then .ok none
  else
    match bodyText? body with
    | none => .error unreadableBody
    | some text =>
      match Json.parseWithin nestingLimit (withEscapes text) with
      | .ok v => .ok (some v)
      | .error .malformed => .error malformedBody
      | .error (.numeralTooLong _) | .error (.nestedTooDeep _) => .error unreadableBody

end MarketMaker.Http
