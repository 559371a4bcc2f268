import ScriptLexer.Proofs.Json.Numbers

/-!
# Objects have members

Every text that has the form of an object has members, and only such a text has. Each member has a name,
whether or not the name spells out characters.
-/

namespace ScriptLexer

namespace Json

/-! ## Names -/

theorem inside_of_spellsText {characters text : List Char} (spells : SpellsText characters text) :
    Inside text := by
  induction spells with
  | nil => exact .nil
  | cons first _ induction =>
    cases first with
    | plain plain => exact .plain plain induction
    | named named => exact .named named induction
    | unit unit => exact .unit unit induction
    | pair highUnit _ lowUnit =>
      rw [List.cons_append, List.cons_append, List.append_assoc]
      exact .unit highUnit (.unit lowUnit induction)

theorem inside_iff {text : List Char} : Inside text ↔ ∃ key, SpellsName text key := by
  constructor
  · intro inside
    by_cases spelled : ∃ characters, SpellsText characters text
    · rcases spelled with ⟨characters, spells⟩
      rw [← @String.toList_ofList characters] at spells
      exact ⟨_, .whole spells⟩
    · exact ⟨_, .half inside (not_exists.mp spelled)⟩
  · rintro ⟨_, spells | ⟨inside, -⟩⟩
    · exact inside_of_spellsText spells
    · exact inside

/-! ## Members -/

theorem item_iff {text : List Char} :
    Form (.item .object) text ↔ ∃ member, SpellsMember text member := by
  constructor
  · intro item
    cases item with
    | member blankBefore inside blankBetween value =>
      rcases inside_iff.mp inside with ⟨key, names⟩
      cases value with
      | element blankLead isValue blankAfter =>
        exact ⟨_, .intro blankBefore names blankBetween blankLead isValue blankAfter⟩
  · rintro ⟨_, blankBefore, names, blankBetween, blankLead, isValue, blankAfter⟩
    exact .member blankBefore (inside_iff.mpr ⟨_, names⟩) blankBetween
      (.element blankLead isValue blankAfter)

theorem items_iff {text : List Char} :
    Form (.items .object) text ↔ ∃ members, SpellsMembers text members := by
  constructor
  · intro items
    -- Of the parts, only items can have others of their kind in front of a comma.
    generalize isItems : Part.items .object = part at items
    induction items with
    | single item =>
      cases isItems
      exact (item_iff.mp item).imp' _ fun _ spells => .single spells
    | more item _ _ induction =>
      cases isItems
      rcases item_iff.mp item with ⟨member, spells⟩
      exact (induction rfl).imp' _ fun _ others => .more spells others
    | _ => cases isItems
  · rintro ⟨_, spells⟩
    induction spells with
    | single spells => exact .single (item_iff.mpr ⟨_, spells⟩)
    | more spells _ induction => exact .more (item_iff.mpr ⟨_, spells⟩) induction

/-! ## Objects -/

theorem object_iff {text : List Char} :
    Form .value text ∧ text.head? = some Frame.object.opener ↔ ∃ members, SpellsObject text members := by
  constructor
  · rintro ⟨isValue, opens⟩
    cases isValue with
    | word isWord =>
      have others : ∀ word ∈ words, word.head? ≠ some Frame.object.opener := by decide
      exact (others _ isWord opens).elim
    | number isNumber =>
      rcases Number.exists_start isNumber with ⟨first, _, rfl, isStart⟩
      cases opens
      exact absurd isStart (by decide)
    | string => exact absurd (Option.some.inj opens) (by decide)
    | @empty frame _ isBlank =>
      cases frame with
      | list => exact absurd (Option.some.inj opens) (by decide)
      | object => exact ⟨_, .empty isBlank⟩
    | @filled frame _ items =>
      cases frame with
      | list => exact absurd (Option.some.inj opens) (by decide)
      | object => exact (items_iff.mp items).imp fun _ spells => .filled spells
  · rintro ⟨_, isBlank | spells⟩
    · exact ⟨@Form.empty .object _ isBlank, rfl⟩
    · exact ⟨@Form.filled .object _ (items_iff.mpr ⟨_, spells⟩), rfl⟩

theorem isObject_iff {text : List Char} : IsObject text ↔ ∃ members, ObjectText text members := by
  constructor
  · rintro ⟨blankBefore, isValue, opens, blankAfter⟩
    exact (object_iff.mp ⟨isValue, opens⟩).imp fun _ spells => .intro blankBefore spells blankAfter
  · rintro ⟨_, blankBefore, spells, blankAfter⟩
    rcases object_iff.mpr ⟨_, spells⟩ with ⟨isValue, opens⟩
    exact .intro blankBefore isValue opens blankAfter

end Json

end ScriptLexer
