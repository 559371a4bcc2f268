import ScriptLexer.Delimiters.Json
import ScriptLexer.Proofs.Delimiters.Members
import ScriptLexer.Proofs.Json.Strings

/-!
# Delimiters are told by their text

A set of delimiters and its text tell each other, directly and by way of JSON. Sets are equal where the
texts that they are made of have the same ASCII characters in the same order of first occurrence.
-/

namespace ScriptLexer

namespace Delimiters

/-- However a text is written as JSON, its delimiters are read. -/
theorem ofJson_of_stringText {document value : String}
    (isString : Json.StringText document.toList value) : ofJson document = .ok (ofText value) := by
  rcases Json.readText_of_stringText isString with ⟨rest, shorter, read, blank⟩
  rw [ofJson, read, Json.ok_bind]
  dsimp only
  rw [Json.finish_blanks blank]
  rfl

/-- Delimiters hold each ASCII character of a text once, in the order of first occurrence, and nothing
else: that is what going through its bytes collects, and what tells two of them apart. Every set has a
text, from which it is made again; so it is from its JSON, and from all JSON that spells out a text the
delimiters of that text are read. -/
theorem delimiters_keep_members (text : String) :
    let delimiters := ofText text
    delimiters.bytes = collect (Utf8.encode text) ∧
      delimiters.bytes = (firstOccurrences text.toList).map Utf8.letterByte ∧
      delimiters.bytes.Nodup ∧
      (∀ byte, delimiters.contains byte = true ↔ byte < 0x80 ∧ byte ∈ Utf8.encode text) ∧
      (∀ other, delimiters = ofText other ↔
        firstOccurrences text.toList = firstOccurrences other.toList) ∧
      ofJson (Json.quote text) = .ok delimiters ∧
      (∀ document : String, Json.StringText document.toList text →
        ofJson document = .ok delimiters) ∧
      ∀ set : Delimiters,
        String.fromUTF8? set.bytes.toByteArray = some set.text ∧
          ofText set.text = set ∧
          ofJson set.toJson = .ok set := by
  intro delimiters
  refine ⟨bytes_ofText text, bytes_ofText_eq_map text, delimiters.nodup,
    fun byte => contains_ofText_iff, fun other => ofText_eq_iff,
    ofJson_of_stringText (Json.stringText_quote text), fun document => ofJson_of_stringText,
    fun set => ⟨?_, ofText_text set, ?_⟩⟩
  · rw [← encode_text, Utf8.fromUTF8?_encode]
  · rw [toJson, ofJson_of_stringText (Json.stringText_quote set.text), ofText_text]

/-- A text whose characters are written in all the ways that there are: by units with digits of either
case, by a pair of units, by name and plainly. -/
theorem delimiters_keep_members_escaped :
    let text := "=😀;==\""
    let document := "\t\"\\u003d\\uD83d\\uDE00;\\u003D=\\\"\" "
    Json.StringText document.toList text ∧ ofJson document = .ok (ofText text) ∧
      (ofText text).text = "=;\"" := by
  intro text document
  have isString : Json.StringText document.toList text := by
    have equals : Json.SpellsCharacter '=' ['\\', 'u', '0', '0', '3', 'd'] := .unit (by decide)
    have equalsLarge : Json.SpellsCharacter '=' ['\\', 'u', '0', '0', '3', 'D'] := .unit (by decide)
    have high : Json.SpellsUnit ['D', '8', '3', 'd'] 0xD83D := by decide
    have low : Json.SpellsUnit ['D', 'E', '0', '0'] 0xDE00 := by decide
    have face : Json.SpellsCharacter '😀'
        (['\\', 'u'] ++ (['D', '8', '3', 'd'] ++ ['\\', 'u', 'D', 'E', '0', '0'])) :=
      .pair high (by decide) low (by decide) (by decide)
    have semicolon : Json.SpellsCharacter ';' [';'] := .plain ⟨by decide, by decide, by decide⟩
    have plain : Json.SpellsCharacter '=' ['='] := .plain ⟨by decide, by decide, by decide⟩
    have spells := Json.SpellsText.cons equals (.cons face (.cons semicolon (.cons equalsLarge
      (.cons plain (.cons (.named .quote) .nil)))))
    have letters : text.toList = ['=', '😀', ';', '=', '=', '"'] := by decide +kernel
    rw [← letters] at spells
    have spelled := Json.StringText.intro (show Json.Blanks ['\t'] by decide) spells
      (show Json.Blanks [' '] by decide)
    refine cast (congrArg (Json.StringText · text) ?_) spelled
    decide +kernel
  exact ⟨isString, (delimiters_keep_members text).2.2.2.2.2.2.1 document isString, by decide +kernel⟩

end Delimiters

end ScriptLexer
