import ScriptLexer.Proofs.CommentRules.Mentions
import ScriptLexer.Proofs.Json.Objects
import ScriptLexer.Proofs.Json.Values

/-!
# Comment rules are told by the members of an object

Of the members of an object those matter that are named for a rule. Each rule may have one of them, with
a truth value. What stands between them, before and behind them has no bearing on the rules, nor has
their order. A value that is not asked for may be of any form. Its name may not: an object is refused for
a name that spells out half a character, though it is as well formed as any.
-/

namespace ScriptLexer

namespace CommentRules

open Json

/-! ## Reading one member after the other -/

/-- A member is refused if its name spells out no characters, though it is well formed. -/
theorem readMember_half {before name : List Char} (blank : Blanks before) (inside : Inside name)
    (unspelled : ∀ characters, ¬ SpellsText characters name) (mentions : Mentions) (rest : List Char) :
    readMember mentions (before ++ '"' :: (name ++ '"' :: rest)) = .error .malformed := by
  rcases expect_append blank (show '"' ∉ _ by decide) _ with ⟨_, quote⟩
  rw [readMember, quote, ok_bind]
  dsimp only
  rw [readString_half inside unspelled]
  rfl

/-- The one member of this object is named for no rule, and the object is refused all the same, since the
name is half a character. -/
theorem refused_for_half_name :
    let text := "\x7b\"\\ud800\":1\x7d"
    let members := [⟨.none, ['1']⟩]
    IsObject text.toList ∧ ObjectText text.toList members ∧ (∀ rule, named rule members = []) ∧
      ofJson text = .error .malformed ∧
      ¬ ((∃ rules, ofJson text = .ok rules) ↔ ∀ rule, (named rule members).length ≤ 1 ∧
        ∀ member ∈ named rule members, ∃ truth, SpellsTruth member.value truth) := by
  intro text members
  have blank : Blanks [] := by decide
  have digit : Digits.IsDigit 10 '1' 1 := ⟨by decide, .inl rfl⟩
  have one : Form .value ['1'] :=
    .number (.intro (.inl rfl) (.positive (.cons digit .nil) (by decide)) .none .none)
  have unit : SpellsUnit ['d', '8', '0', '0'] 0xD800 := by decide
  have unspelled (characters : List Char) : ¬ SpellsText characters ['\\', 'u', 'd', '8', '0', '0'] := by
    intro spells
    rcases readString_spelled spells [] with ⟨_, read⟩
    have refused : readString ['\\', 'u', 'd', '8', '0', '0', '"'] = .error .malformed := rfl
    cases refused.symm.trans read
  have member : SpellsMember _ ⟨.none, ['1']⟩ :=
    .intro blank (.half (.unit unit .nil) unspelled) blank blank one blank
  have spelled : ObjectText text.toList members := by
    refine cast (congrArg (ObjectText · members) ?_)
      (ObjectText.intro blank (.filled (.single member)) blank)
    decide +kernel
  have unnamed (rule : CommentRule) : named rule members = [] := rfl
  have refused : ofJson text = .error .malformed := by decide +kernel
  refine ⟨isObject_iff.mpr ⟨members, spelled⟩, spelled, unnamed, refused, fun accepted_iff => ?_⟩
  have accepted : ∃ rules, ofJson text = .ok rules := by
    refine accepted_iff.mpr fun rule => ?_
    rw [unnamed]
    exact ⟨Nat.zero_le 1, List.forall_mem_nil _⟩
  rcases accepted with ⟨rules, accepted⟩
  rw [refused] at accepted
  cases accepted

theorem readMember_spelled {text rest : List Char} {member : Member}
    (spells : SpellsMember text member) (ends : Ends rest) (mentions : Mentions) :
    (∃ later blanks shorter, addMember mentions member = some later ∧
      readMember mentions (text ++ rest) = .ok (later, ⟨blanks ++ rest, shorter⟩) ∧ Blanks blanks) ∨
    (addMember mentions member = .none ∧
      ∃ fault, readMember mentions (text ++ rest) = .error fault) := by
  rcases spells with @⟨_, _, _, _, value, after, _, blankBefore, names, blankBetween, blankLead,
    isValue, blankAfter⟩
  rw [List.append_assoc, List.cons_append, List.append_assoc, List.cons_append, List.append_assoc,
    List.cons_append, List.append_assoc, List.append_assoc]
  cases names with
  | half inside unspelled =>
    exact .inr ⟨rfl, _, readMember_half blankBefore inside unspelled mentions _⟩
  | @whole key spells =>
    rcases expect_append blankBefore (show '"' ∉ _ by decide) _ with ⟨_, quote⟩
    rcases readString_spelled spells _ with ⟨_, readKey⟩
    rcases expect_append blankBetween (show ':' ∉ _ by decide) _ with ⟨_, colon⟩
    rw [readMember, quote, ok_bind]
    dsimp only
    rw [readKey, ok_bind]
    dsimp only
    rw [String.ofList_toList, addMember, Option.bind_some]
    cases CommentRule.ofKey? key with
    | none =>
      rcases skipValue_spelled blankLead isValue (ends_append blankAfter ends) with ⟨_, skipped⟩
      dsimp only
      rw [colon, ok_bind, skipped]
      exact .inl ⟨mentions, after, _, rfl, rfl, blankAfter⟩
    | some rule =>
      dsimp only
      -- A second mention is found at the name, so the value behind it is not looked at.
      by_cases mentioned : mentions.any (·.1 = rule) = true
      · rw [if_pos mentioned, if_pos mentioned]
        exact .inr ⟨rfl, _, rfl⟩
      · rw [if_neg mentioned, if_neg mentioned, colon, ok_bind]
        dsimp only
        cases truth : truth? value with
        | none =>
          have other : ¬ ∃ truth, SpellsTruth value truth := by
            rintro ⟨enabled, spells⟩
            rw [truth?_eq_some_iff.mpr spells] at truth
            cases truth
          rcases readTruth_other blankLead isValue other (after ++ rest) with ⟨fault, refused⟩
          rw [refused]
          exact .inr ⟨rfl, fault, rfl⟩
        | some enabled =>
          have spells := truth?_eq_some_iff.mp truth
          rcases readTruth_spelled blankLead spells (after ++ rest) with ⟨_, read⟩
          rw [read]
          exact .inl ⟨_, after, _, rfl, rfl, blankAfter⟩

theorem toOption_readMembers {text : List Char} {members : List Member}
    (spells : SpellsMembers text members) (mentions : Mentions) (rest : List Char) :
    (readMembers mentions (text ++ '\x7d' :: rest)).toOption =
      (members.foldlM addMember mentions).map fun later => (later, rest) := by
  induction spells generalizing mentions with
  | single spells =>
    rw [List.foldlM_cons, readMembers]
    have ends := ends_cons (show '\x7d' ∈ _ by decide) rest
    rcases readMember_spelled spells ends mentions with
      ⟨later, blanks, shorter, added, read, blank⟩ | ⟨refused, fault, read⟩
    · rw [added, read, ok_bind]
      dsimp only
      rw [separator_eq (skipBlanks_cons blank (show '\x7d' ∉ _ by decide) rest), if_neg (by decide),
        if_pos rfl]
      rfl
    · rw [refused, read]
      rfl
  | @more text later member members spells others induction =>
    rw [List.append_assoc, List.cons_append, List.foldlM_cons, readMembers]
    have ends := ends_cons (show ',' ∈ _ by decide) (later ++ '\x7d' :: rest)
    rcases readMember_spelled spells ends mentions with
      ⟨next, blanks, shorter, added, read, blank⟩ | ⟨refused, fault, read⟩
    · rw [added, read, ok_bind]
      dsimp only
      rw [separator_eq (skipBlanks_cons blank (show ',' ∉ _ by decide) _), if_pos rfl]
      exact induction next
    · rw [refused, read]
      rfl

theorem exists_quote {text : List Char} {members : List Member} (spells : SpellsMembers text members)
    (rest : List Char) : ∃ others, skipBlanks (text ++ rest) = '"' :: others := by
  have quoted {text : List Char} {member : Member} (spells : SpellsMember text member)
      (rest : List Char) : ∃ others, skipBlanks (text ++ rest) = '"' :: others := by
    rcases spells with ⟨blankBefore, -, -, -, -, -⟩
    rw [List.append_assoc]
    exact ⟨_, skipBlanks_cons blankBefore (by decide) _⟩
  cases spells with
  | single spells => exact quoted spells rest
  | more spells others =>
    rw [List.append_assoc]
    exact quoted spells _

theorem readObject_spelled {text : List Char} {members : List Member}
    (isObject : ObjectText text members) :
    ∃ inner rest, skipBlanks text = '\x7b' :: inner ∧ Blanks rest ∧
      (readObject inner).toOption = (members.foldlM addMember []).map fun later => (later, rest) := by
  rcases isObject with @⟨_, _, after, _, blankBefore, spells, blankAfter⟩
  cases spells with
  | @empty blanks isBlank =>
    have found := skipBlanks_cons isBlank (show '\x7d' ∉ _ by decide) after
    rw [List.cons_append, List.append_assoc, List.singleton_append]
    refine ⟨_, after, skipBlanks_cons blankBefore (by decide) _, blankAfter, ?_⟩
    rw [readObject, found]
    rfl
  | @filled text members spells =>
    rcases exists_quote spells ('\x7d' :: after) with ⟨others, found⟩
    rw [List.cons_append, List.append_assoc, List.singleton_append]
    refine ⟨_, after, skipBlanks_cons blankBefore (by decide) _, blankAfter, ?_⟩
    rw [← toOption_readMembers spells, readObject, found]
    rfl

/-- What is read from an object are the mentions that its members add up to. -/
theorem toOption_ofJson {text : String} {members : List Member}
    (isObject : ObjectText text.toList members) :
    (ofJson text).toOption = (members.foldlM addMember []).map ofMentions := by
  rcases readObject_spelled isObject with ⟨inner, rest, found, blank, read⟩
  have behind_opener : ofJson text = readObject inner >>= fun parsed =>
      finish parsed.2 >>= fun _ => pure (ofMentions parsed.1) := by
    rw [ofJson, found]
    rfl
  rw [behind_opener]
  cases parsed : readObject inner with
  | error fault =>
    rw [parsed] at read
    rw [Option.map_eq_none_iff.mp read.symm]
    rfl
  | ok result =>
    rw [parsed] at read
    rcases Option.map_eq_some_iff.mp read.symm with ⟨later, collected, rfl⟩
    rw [collected, ok_bind]
    dsimp only
    rw [finish_blanks blank]
    rfl

/-! ## The rules -/

/-- Every object has members. It is accepted just if their names spell out characters and each rule has at
most one of them, with a truth value. A rule that has a member is as it tells, and of the others the rule
for C is on. No other members matter, and no order. -/
theorem rules_told_by_members {text : String} (isObject : IsObject text.toList) :
    (∃ members, ObjectText text.toList members) ∧
    ∀ members, ObjectText text.toList members →
      ((∃ rules, ofJson text = .ok rules) ↔ Whole members ∧
        ∀ rule, (named rule members).length ≤ 1 ∧
          ∀ member ∈ named rule members, ∃ truth, SpellsTruth member.value truth) ∧
      (∀ rules, ofJson text = .ok rules → ∀ rule,
        (named rule members = [] → rules.enabled rule = decide (rule = .cStyle)) ∧
          ∀ member ∈ named rule members, SpellsTruth member.value (rules.enabled rule)) ∧
      ∀ (other : String) (others : List Member), ObjectText other.toList others →
        (Whole others ↔ Whole members) → (∀ rule, (named rule others).Perm (named rule members)) →
          (ofJson other).toOption = (ofJson text).toOption := by
  refine ⟨isObject_iff.mp isObject, fun members spelled => ?_⟩
  have read := toOption_ofJson spelled
  rw [← settled_iff]
  refine ⟨⟨?_, ?_⟩, ?_, ?_⟩
  · rintro ⟨rules, accepted⟩
    rw [accepted] at read
    rcases Option.map_eq_some_iff.mp read.symm with ⟨mentions, collected, -⟩
    exact (settled_of_collected collected).1
  · intro settled
    rcases exists_collected settled with ⟨mentions, collected⟩
    rw [collected] at read
    cases accepted : ofJson text with
    | error =>
      rw [accepted] at read
      cases read
    | ok rules => exact ⟨rules, rfl⟩
  · intro rules accepted
    rw [accepted] at read
    rcases Option.map_eq_some_iff.mp read.symm with ⟨mentions, collected, rfl⟩
    exact enabled_of_collected collected
  · intro other others spelledOther whole same
    rw [read, toOption_ofJson spelledOther]
    exact map_ofMentions_of_perm whole same

/-- A key that is spelled with a unit, and between the members that matter others of one name, with a
number out of range and half a character in them. -/
theorem rules_told_by_members_nested :
    let text := "\x7b \"\\u0065nable_hash_comments\" : true,\"x\":[1e999,\x7b\"\\uD800\":[]\x7d]," ++
      "\n\"x\":null,\"enable_c_comments\":false\x7d\t"
    let members := [⟨some "enable_hash_comments", "true".toList⟩,
      ⟨some "x", "[1e999,\x7b\"\\uD800\":[]\x7d]".toList⟩, ⟨some "x", "null".toList⟩,
      ⟨some "enable_c_comments", "false".toList⟩]
    IsObject text.toList ∧ ObjectText text.toList members ∧ (∃ rules, ofJson text = .ok rules) ∧
      ofJson text = .ok { cStyle := false, hash := true, semicolon := false } := by
  intro text members
  have one : Digits.IsDigit 10 '1' 1 := ⟨by decide, .inl rfl⟩
  have nine : Digits.IsDigit 10 '9' 9 := ⟨by decide, .inl rfl⟩
  have none : Blanks [] := by decide
  have space : Blanks [' '] := by decide
  have letter : SpellsCharacter 'e' ['\\', 'u', '0', '0', '6', '5'] :=
    .unit (by decide)
  have unit : SpellsUnit ['D', '8', '0', '0'] 0xD800 := by decide
  have half : Inside ['\\', 'u', 'D', '8', '0', '0'] := .unit unit .nil
  have large : IsNumber ['1', 'e', '9', '9', '9'] :=
    .intro (.inl rfl) (.positive (.cons one .nil) (by decide)) .none
      (.marked (.inl rfl) .none (.cons nine (.cons nine (.cons nine .nil))) (by decide))
  have empty : Form .value ['[', ']'] := @Form.empty .list [] none
  have object : Form .value ("\x7b\"\\uD800\":[]\x7d".toList) :=
    @Form.filled .object _ (.single (.member none half none (.element none empty none)))
  have list : Form .value ("[1e999,\x7b\"\\uD800\":[]\x7d]".toList) :=
    @Form.filled .list _ (.more (.element none (.number large) none)
      (.single (.element none object none)))
  have hash : SpellsMember _ ⟨some "enable_hash_comments", "true".toList⟩ :=
    .intro space (.whole (.cons letter (spellsText_escape "nable_hash_comments".toList))) space space
      (.word (by decide)) none
  have nested : SpellsMember _ ⟨some "x", _⟩ :=
    .intro none (.whole (spellsText_escape "x".toList)) none none list none
  have unknown : SpellsMember _ ⟨some "x", "null".toList⟩ :=
    .intro (show Blanks ['\n'] by decide) (.whole (spellsText_escape "x".toList)) none none
      (.word (by decide)) none
  have cStyle : SpellsMember _ ⟨some "enable_c_comments", "false".toList⟩ :=
    .intro none (.whole (spellsText_escape "enable_c_comments".toList)) none none
      (.word (by decide)) none
  have spelled : ObjectText text.toList members := by
    refine cast (congrArg (ObjectText · members) ?_) (ObjectText.intro none
      (.filled (.more hash (.more nested (.more unknown (.single cStyle)))))
      (show Blanks ['\t'] by decide))
    decide +kernel
  have isObject := isObject_iff.mpr ⟨members, spelled⟩
  have whole : Whole members := List.all_iff_forall_prop.mp (by decide +kernel)
  refine ⟨isObject, spelled, ?_, by decide +kernel⟩
  refine ((rules_told_by_members isObject).2 members spelled).1.mpr ⟨whole, fun rule => ?_⟩
  cases rule with
  | cStyle =>
    have only : named .cStyle members = [⟨some "enable_c_comments", "false".toList⟩] := by decide +kernel
    rw [only]
    exact ⟨Nat.le_refl 1, List.forall_mem_singleton.mpr ⟨false, .no⟩⟩
  | hash =>
    have only : named .hash members = [⟨some "enable_hash_comments", "true".toList⟩] := by decide +kernel
    rw [only]
    exact ⟨Nat.le_refl 1, List.forall_mem_singleton.mpr ⟨true, .yes⟩⟩
  | semicolon =>
    have absent : named .semicolon members = [] := by decide +kernel
    rw [absent]
    exact ⟨Nat.zero_le 1, List.forall_mem_nil _⟩

end CommentRules

end ScriptLexer
