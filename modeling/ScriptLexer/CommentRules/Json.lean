import ScriptLexer.Comment
import ScriptLexer.Json.Value

/-!
# Comment rules as JSON

Comment rules are written as an object with one member for each rule. They are read from such an
object, where members may be left out, come in any order and be mixed with others, or from a list of
truth values in the order of the rules, which may stop early. A rule that is not mentioned is as in
the standard rules; one that is mentioned twice in an object is an error.
-/

namespace ScriptLexer

namespace CommentRule

def all : List CommentRule :=
  [.cStyle, .hash, .semicolon]

/-- The key of the member that says whether the rule is on. -/
def key : CommentRule → String
  | .cStyle => "enable_c_comments"
  | .hash => "enable_hash_comments"
  | .semicolon => "enable_semicolon_comments"

def ofKey? (key : String) : Option CommentRule :=
  all.find? fun rule => rule.key == key

theorem ofKey?_key (rule : CommentRule) : ofKey? rule.key = some rule := by
  cases rule <;> decide

end CommentRule

namespace CommentRules

open Json

def toJson (rules : CommentRules) : String :=
  let member (rule : CommentRule) : String :=
    quote rule.key ++ ":" ++ if rules.enabled rule then "true" else "false"
  "\x7b" ++ ",".intercalate (CommentRule.all.map member) ++ "\x7d"

/-! Reading. What an object says about the rules is collected in the order in which it says so. -/

abbrev Mentions := List (CommentRule × Bool)

/-- The standard rules, changed by what was mentioned. -/
def ofMentions (mentions : Mentions) : CommentRules :=
  mentions.foldl (fun rules (rule, enabled) => rules.set rule enabled) standard

/-- Reads one member, and adds what it mentions. That a rule was mentioned before is found out at its
key. -/
def readMember (mentions : Mentions) (text : List Char) :
    Except Fault (Mentions × Shorter text) := do
  let inside ← expect '"' text
  let (key, behind) ← readString inside.1
  match CommentRule.ofKey? key with
  | .none =>
    let value ← expect ':' behind.1
    let left ← skipValue value.1
    return (mentions, inside.andThen (behind.andThen (value.andThen left.rest).rest).rest)
  | .some rule =>
    if mentions.any (·.1 = rule) then .error .repeatedMember
    else
      let value ← expect ':' behind.1
      let (enabled, left) ← readTruth value.1
      return (mentions ++ [(rule, enabled)],
        inside.andThen (behind.andThen (value.andThen left.rest).rest).rest)

/-- Reads members up to the end of the object that they are in. -/
def readMembers (mentions : Mentions) (text : List Char) :
    Except Fault (Mentions × List Char) := do
  let (mentions, behind) ← readMember mentions text
  let (more, left) ← separator '\x7d' behind.1
  if more then readMembers mentions left.1 else return (mentions, left.1)
  termination_by text.length
  decreasing_by exact Nat.lt_trans left.2 behind.2

/-- Reads an object behind its opening brace. -/
def readObject (text : List Char) : Except Fault (Mentions × List Char) :=
  match skipBlanks text with
  | '\x7d' :: rest => .ok ([], rest)
  | _ => readMembers [] text

/-- Reads the truth values of a list for the given rules, up to its end. Every value but the first
follows a comma. -/
def readValues (first : Bool) (rules : List CommentRule) (mentions : Mentions) (text : List Char) :
    Except Fault (Mentions × List Char) :=
  match rules with
  | [] => do
    let left ← expect ']' text
    return (mentions, left.1)
  | rule :: later =>
    match skipBlanks text with
    | ']' :: rest => .ok (mentions, rest)
    | _ => do
      let text ← if first then pure text else Subtype.val <$> expect ',' text
      let (enabled, left) ← readTruth text
      readValues false later (mentions ++ [(rule, enabled)]) left.1

def ofJson (text : String) : Except Fault CommentRules := do
  let (mentions, rest) ← match skipBlanks text.toList with
    | [] => .error .truncated
    | '[' :: rest => readValues true CommentRule.all [] rest
    | '\x7b' :: rest => readObject rest
    | text => .error (mismatch text)
  finish rest
  return ofMentions mentions

example : ofJson "[false, true]" = .ok { cStyle := false, hash := true, semicolon := false } := rfl
example : ofJson "[true,]" = .error .malformed := rfl

end CommentRules

end ScriptLexer
