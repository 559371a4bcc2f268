import Mathlib.Data.List.Induction
import ScriptLexer.CommentRules.Json
import ScriptLexer.Proofs.Grammar.Json

/-!
# What members mention

Members are taken in one after the other, and what each says about a rule is added to what was mentioned
before. That goes through just if every name spells out characters and each rule has at most one member,
with a truth value. Then no member that is named for no rule matters, and no order.
-/

namespace ScriptLexer

namespace CommentRule

theorem ofKey?_eq_some_iff {key : String} {rule : CommentRule} :
    ofKey? key = some rule ↔ key = rule.key := by
  constructor
  · intro found
    have same := List.find?_some found
    exact (beq_iff_eq.mp same).symm
  · rintro rfl
    exact ofKey?_key rule

theorem key_inj {rule other : CommentRule} (same : rule.key = other.key) : rule = other := by
  have found := ofKey?_key rule
  rw [same, ofKey?_key] at found
  exact (Option.some.inj found).symm

end CommentRule

namespace CommentRules

open Json

theorem ext_of_enabled {left right : CommentRules}
    (same : ∀ rule, left.enabled rule = right.enabled rule) : left = right := by
  have cStyle := same .cStyle
  have hash := same .hash
  have semicolon := same .semicolon
  cases left
  cases right
  cases cStyle
  cases hash
  cases semicolon
  rfl

/-! ## What one member adds -/

def truth? (value : List Char) : Option Bool :=
  if value = "true".toList then some true
  else if value = "false".toList then some false
  else .none

theorem truth?_eq_some_iff {value : List Char} {truth : Bool} :
    truth? value = some truth ↔ SpellsTruth value truth := by
  constructor
  · unfold truth?
    split_ifs with yes no
    · rintro ⟨⟩
      exact yes ▸ .yes
    · rintro ⟨⟩
      exact no ▸ .no
    · rintro ⟨⟩
  · rintro (_ | _) <;> rfl

theorem spellsTruth_unique {value : List Char} {truth other : Bool} (spells : SpellsTruth value truth)
    (spellsOther : SpellsTruth value other) : truth = other :=
  Option.some.inj ((truth?_eq_some_iff.mpr spells).symm.trans (truth?_eq_some_iff.mpr spellsOther))

/-- What is mentioned after a member, if it may stand behind what was mentioned before. -/
def addMember (mentions : Mentions) (member : Member) : Option Mentions :=
  member.key.bind fun key =>
    match CommentRule.ofKey? key with
    | .none => some mentions
    | .some rule =>
      if mentions.any (·.1 = rule) then .none
      else (truth? member.value).map fun enabled => mentions ++ [(rule, enabled)]

/-! ## What all members add up to -/

/-- The members that say whether the rule is on. -/
def named (rule : CommentRule) (members : List Member) : List Member :=
  members.filter fun member => member.key = some rule.key

/-- Every name spells out characters. -/
def Whole (members : List Member) : Prop :=
  ∀ member ∈ members, member.key ≠ .none

/-- Every name spells out characters, and each rule has at most one member, with a truth value. -/
@[mk_iff]
structure Settled (members : List Member) : Prop where
  whole : Whole members
  once : ∀ rule, (named rule members).length ≤ 1 ∧
    ∀ member ∈ named rule members, ∃ truth, SpellsTruth member.value truth

theorem mem_named {rule : CommentRule} {member : Member} {members : List Member} :
    member ∈ named rule members ↔ member ∈ members ∧ member.key = some rule.key := by
  rw [named, List.mem_filter, decide_eq_true_eq]

theorem Settled.only {members : List Member} (settled : Settled members) {rule : CommentRule}
    {member other : Member} (isNamed : member ∈ named rule members)
    (otherNamed : other ∈ named rule members) : member = other :=
  match named rule members, (settled.once rule).1, isNamed, otherNamed with
  | [_], _, isOnly, otherOnly =>
    (List.mem_singleton.mp isOnly).trans (List.mem_singleton.mp otherOnly).symm

theorem Settled.eq_of_perm {members : List Member} (settled : Settled members) {rule : CommentRule}
    {others : List Member} (same : others.Perm (named rule members)) : others = named rule members :=
  match named rule members, (settled.once rule).1, same with
  | [], _, same => same.eq_nil
  | [_], _, same => List.perm_singleton.mp same

theorem named_concat (rule : CommentRule) (front : List Member) (last : Member) :
    named rule (front ++ [last]) =
      named rule front ++ if last.key = some rule.key then [last] else [] := by
  simp only [named, List.filter_append, List.filter_cons, List.filter_nil, decide_eq_true_eq]

theorem whole_concat {front : List Member} {last : Member} :
    Whole (front ++ [last]) ↔ Whole front ∧ last.key ≠ .none :=
  List.forall_mem_append.trans (and_congr_right' List.forall_mem_singleton)

/-- A member may follow others if its name spells out characters, and it is named for no rule, or is the
first for its rule and has a truth value. -/
theorem settled_concat {front : List Member} {last : Member} :
    Settled (front ++ [last]) ↔ Settled front ∧ last.key ≠ .none ∧
      ∀ rule, last.key = some rule.key →
        named rule front = [] ∧ ∃ truth, SpellsTruth last.value truth := by
  constructor
  · rintro ⟨whole, once⟩
    rcases whole_concat.mp whole with ⟨wholeFront, wholeLast⟩
    refine ⟨⟨wholeFront, fun rule => ⟨?_, fun member inFront => ?_⟩⟩, wholeLast,
      fun rule same => ⟨?_, ?_⟩⟩
    · have bound := (once rule).1
      rw [named_concat, List.length_append] at bound
      omega
    · refine (once rule).2 member ?_
      rw [named_concat]
      exact List.mem_append_left _ inFront
    · have bound := (once rule).1
      rw [named_concat, if_pos same, List.length_append, List.length_singleton] at bound
      exact List.length_eq_zero_iff.mp (by omega)
    · exact (once rule).2 last (mem_named.mpr ⟨List.mem_concat_self, same⟩)
  · rintro ⟨settled, wholeLast, fits⟩
    refine ⟨whole_concat.mpr ⟨settled.whole, wholeLast⟩, fun rule => ?_⟩
    rw [named_concat]
    by_cases same : last.key = some rule.key
    · rcases fits rule same with ⟨none, truth⟩
      rw [none, if_pos same, List.nil_append]
      exact ⟨Nat.le_refl 1, List.forall_mem_singleton.mpr truth⟩
    · rw [if_neg same, List.append_nil]
      exact settled.once rule

theorem addMember_eq_some_iff {mentions later : Mentions} {member : Member} :
    addMember mentions member = some later ↔
      (member.key ≠ .none ∧ (∀ rule : CommentRule, member.key ≠ some rule.key) ∧ later = mentions) ∨
      ∃ rule truth, member.key = some rule.key ∧ SpellsTruth member.value truth ∧
        (∀ other, (rule, other) ∉ mentions) ∧ later = mentions ++ [(rule, truth)] := by
  rw [addMember]
  cases member.key with
  | none => simp
  | some key =>
    simp only [Option.bind_some, ne_eq, reduceCtorEq, not_false_eq_true, true_and, Option.some.injEq]
    cases found : CommentRule.ofKey? key with
    | none =>
      have unnamed : ∀ rule : CommentRule, key ≠ rule.key := by
        intro rule same
        rw [CommentRule.ofKey?_eq_some_iff.mpr same] at found
        cases found
      constructor
      · rintro ⟨⟩
        exact .inl ⟨unnamed, rfl⟩
      · rintro (⟨-, rfl⟩ | ⟨rule, truth, same, -⟩)
        · rfl
        · exact (unnamed rule same).elim
    | some rule =>
      have same := CommentRule.ofKey?_eq_some_iff.mp found
      have mentioned_iff : mentions.any (·.1 = rule) = true ↔ ∃ other, (rule, other) ∈ mentions := by
        simp
      dsimp only
      constructor
      · intro added
        split at added
        · cases added
        · next fresh =>
          rcases Option.map_eq_some_iff.mp added with ⟨truth, spells, rfl⟩
          rw [mentioned_iff, not_exists] at fresh
          exact .inr ⟨rule, truth, same, truth?_eq_some_iff.mp spells, fresh, rfl⟩
      · rintro (⟨unnamed, -⟩ | ⟨other, truth, sameOther, spells, fresh, rfl⟩)
        · exact (unnamed rule same).elim
        · cases CommentRule.key_inj (same.symm.trans sameOther)
          rw [if_neg (mt mentioned_iff.mp (not_exists.mpr fresh)), truth?_eq_some_iff.mpr spells]
          rfl

/-- Mentioned is just what the members say. -/
def Said (members : List Member) (mentions : Mentions) : Prop :=
  ∀ rule truth, (rule, truth) ∈ mentions ↔
    ∃ member ∈ named rule members, SpellsTruth member.value truth

section

variable {front : List Member} {last : Member} {mentions : Mentions} (said : Said front mentions)
include said

/-- A member that was added is said as the others are. -/
theorem settled_of_added (settled : Settled front) {later : Mentions}
    (added : addMember mentions last = some later) :
    Settled (front ++ [last]) ∧ Said (front ++ [last]) later := by
  rcases addMember_eq_some_iff.mp added with
    ⟨whole, unnamed, rfl⟩ | ⟨rule, truth, same, spells, fresh, rfl⟩
  · refine ⟨settled_concat.mpr ⟨settled, whole, fun rule same => (unnamed rule same).elim⟩, ?_⟩
    intro rule truth
    rw [named_concat, if_neg (unnamed rule), List.append_nil]
    exact said rule truth
  · -- A member in front has a truth value, so it would have been mentioned.
    have first : named rule front = [] := by
      refine List.eq_nil_iff_forall_not_mem.mpr fun member inFront => ?_
      rcases (settled.once rule).2 member inFront with ⟨other, tells⟩
      exact fresh other ((said rule other).mpr ⟨member, inFront, tells⟩)
    have only {other : CommentRule} (sameOther : last.key = some other.key) : rule = other :=
      CommentRule.key_inj (Option.some.inj (same.symm.trans sameOther))
    have whole : last.key ≠ .none := by
      rw [same]
      exact Option.some_ne_none _
    refine ⟨settled_concat.mpr ⟨settled, whole, fun other sameOther => ?_⟩, fun other otherTruth => ?_⟩
    · cases only sameOther
      exact ⟨first, truth, spells⟩
    · rw [List.mem_append, said, List.mem_singleton, Prod.mk.injEq, named_concat]
      by_cases here : last.key = some other.key
      · cases only here
        rw [first, if_pos here, List.nil_append]
        constructor
        · rintro (⟨member, inNone, -⟩ | ⟨-, rfl⟩)
          · cases inNone
          · exact ⟨last, List.mem_singleton_self _, spells⟩
        · rintro ⟨member, inLast, tells⟩
          cases List.mem_singleton.mp inLast
          exact .inr ⟨rfl, spellsTruth_unique tells spells⟩
      · rw [if_neg here, List.append_nil]
        refine or_iff_left ?_
        rintro ⟨rfl, -⟩
        exact here same

theorem exists_added (settled : Settled (front ++ [last])) :
    ∃ later, addMember mentions last = some later := by
  rcases settled_concat.mp settled with ⟨-, whole, fits⟩
  by_cases unnamed : ∀ rule : CommentRule, last.key ≠ some rule.key
  · exact ⟨mentions, addMember_eq_some_iff.mpr (.inl ⟨whole, unnamed, rfl⟩)⟩
  · push Not at unnamed
    rcases unnamed with ⟨rule, same⟩
    rcases fits rule same with ⟨first, truth, spells⟩
    have fresh : ∀ other, (rule, other) ∉ mentions := by
      intro other mentioned
      rcases (said rule other).mp mentioned with ⟨member, inFront, -⟩
      rw [first] at inFront
      cases inFront
    exact ⟨_, addMember_eq_some_iff.mpr (.inr ⟨rule, truth, same, spells, fresh, rfl⟩)⟩

end

theorem foldlM_concat (front : List Member) (last : Member) :
    (front ++ [last]).foldlM addMember [] =
      (front.foldlM addMember []).bind fun mentions => addMember mentions last := by
  rw [List.foldlM_append]
  exact Option.bind_congr fun mentions _ => bind_pure (addMember mentions last)

theorem settled_of_collected {members : List Member} {mentions : Mentions}
    (collected : members.foldlM addMember [] = some mentions) :
    Settled members ∧ Said members mentions := by
  -- From the end, since a member is held against all of those in front of it.
  induction members using List.reverseRecOn generalizing mentions with
  | nil =>
    cases collected
    exact ⟨⟨List.forall_mem_nil _, fun rule => ⟨Nat.zero_le 1, List.forall_mem_nil _⟩⟩,
      fun rule truth => by simp [named]⟩
  | append_singleton front last induction =>
    rw [foldlM_concat] at collected
    rcases Option.bind_eq_some_iff.mp collected with ⟨before, collectedFront, added⟩
    rcases induction collectedFront with ⟨settled, said⟩
    exact settled_of_added said settled added

theorem exists_collected {members : List Member} (settled : Settled members) :
    ∃ mentions, members.foldlM addMember [] = some mentions := by
  induction members using List.reverseRecOn with
  | nil => exact ⟨[], rfl⟩
  | append_singleton front last induction =>
    rcases induction (settled_concat.mp settled).1 with ⟨mentions, collected⟩
    rcases exists_added (settled_of_collected collected).2 settled with ⟨later, added⟩
    refine ⟨later, ?_⟩
    rw [foldlM_concat, collected]
    exact added

theorem foldlM_eq_none {members : List Member} (unsettled : ¬ Settled members) :
    members.foldlM addMember [] = Option.none := by
  refine Option.eq_none_iff_forall_ne_some.mpr fun mentions collected => ?_
  exact unsettled (settled_of_collected collected).1

/-! ## The rules -/

/-- A rule that was mentioned is as it was mentioned last, another one as in the standard rules. -/
theorem enabled_ofMentions (mentions : Mentions) (rule : CommentRule) :
    (rule, (ofMentions mentions).enabled rule) ∈ mentions ∨
      (∀ truth, (rule, truth) ∉ mentions) ∧
        (ofMentions mentions).enabled rule = standard.enabled rule := by
  induction mentions using List.reverseRecOn with
  | nil => exact .inr ⟨fun truth => List.not_mem_nil, rfl⟩
  | append_singleton front last induction =>
    have final : ofMentions (front ++ [last]) = (ofMentions front).set last.1 last.2 := by
      rw [ofMentions, List.foldl_append]
      rfl
    rw [final, enabled_set]
    by_cases same : rule = last.1
    · rw [if_pos same, same]
      exact .inl List.mem_concat_self
    · rw [if_neg same]
      refine induction.imp (List.mem_append_left _) fun fresh => ⟨fun truth mentioned => ?_, fresh.2⟩
      rcases List.mem_append.mp mentioned with inFront | isLast
      · exact fresh.1 truth inFront
      · cases List.mem_singleton.mp isLast
        exact same rfl

theorem enabled_of_collected {members : List Member} {mentions : Mentions}
    (collected : members.foldlM addMember [] = some mentions) (rule : CommentRule) :
    (named rule members = [] → (ofMentions mentions).enabled rule = decide (rule = .cStyle)) ∧
      ∀ member ∈ named rule members,
        SpellsTruth member.value ((ofMentions mentions).enabled rule) := by
  rcases settled_of_collected collected with ⟨settled, said⟩
  rcases enabled_ofMentions mentions rule with mentioned | ⟨fresh, standard⟩
  · rcases (said rule _).mp mentioned with ⟨member, isNamed, tells⟩
    refine ⟨fun none => ?_, fun other otherNamed => ?_⟩
    · rw [none] at isNamed
      cases isNamed
    · rw [settled.only otherNamed isNamed]
      exact tells
  · refine ⟨fun none => ?_, fun member isNamed => ?_⟩
    · rw [standard]
      cases rule <;> rfl
    · rcases (settled.once rule).2 member isNamed with ⟨truth, tells⟩
      exact (fresh truth ((said rule truth).mpr ⟨member, isNamed, tells⟩)).elim

/-- Where the same members are named for the rules, the same comes of them. -/
theorem map_ofMentions_of_perm {members others : List Member} (whole : Whole others ↔ Whole members)
    (same : ∀ rule, (named rule others).Perm (named rule members)) :
    (others.foldlM addMember []).map ofMentions = (members.foldlM addMember []).map ofMentions := by
  have alike : Settled others ↔ Settled members := by
    rw [settled_iff, settled_iff]
    refine and_congr whole (forall_congr' fun rule => and_congr ?_ ?_)
    · rw [(same rule).length_eq]
    · exact forall_congr' fun member => imp_congr_left (same rule).mem_iff
  by_cases settled : Settled members
  · rcases exists_collected settled with ⟨mentions, collected⟩
    rcases exists_collected (alike.mpr settled) with ⟨mentionsOther, collectedOther⟩
    rw [collected, collectedOther]
    refine congrArg some (ext_of_enabled fun rule => ?_)
    have enabled := enabled_of_collected collected rule
    have enabledOther := enabled_of_collected collectedOther rule
    rw [settled.eq_of_perm (same rule)] at enabledOther
    rcases found : named rule members with _ | ⟨member, rest⟩
    · rw [enabledOther.1 found, enabled.1 found]
    · have isNamed : member ∈ named rule members := found ▸ List.mem_cons_self
      exact spellsTruth_unique (enabledOther.2 member isNamed) (enabled.2 member isNamed)
  · rw [foldlM_eq_none settled, foldlM_eq_none (mt alike.mp settled)]

end CommentRules

end ScriptLexer
