import GraphQL.Lexical.Number
import GraphQL.Proofs.Derivation.Basic

/-! Phrases, and what can be told of them from a single token.

Productions are read from left to right, with the next token to decide by. What
has to be known of each part of a production for that to work is its profile. -/

namespace GraphQL

variable {α β : Type}

/-! ## Signs -/

@[simp] theorem Lexeme.kind_eq_punctuator {found : Lexeme} {punctuator : Punctuator} :
    found.kind = .punctuator punctuator ↔ found = .punctuator punctuator := by
  cases found <;> simp [kind]

/-- What a token can be told by. -/
inductive Sign where
  | kind (kind : TokenKind)
  | word (text : String)
  /-- Any name but one. -/
  | nameBut (text : String)
  /-- Any token but those of one kind. -/
  | other (kind : TokenKind)
  deriving DecidableEq

namespace Sign

def mark (punctuator : Punctuator) : Sign := kind (.punctuator punctuator)

def Shows : Sign → Lexeme → Bool
  | kind expected, found => found.kind == expected
  | word text, found => found == .name text
  | nameBut text, found => found.kind == .name && found != .name text
  | other refused, found => found.kind != refused

def apart : Sign → Sign → Bool
  | kind first, kind second => first != second
  | word first, word second => first != second
  | kind first, word _ | kind first, nameBut _ | word _, kind first
  | nameBut _, kind first =>
      first != .name
  | kind first, other second | other first, kind second => first == second
  | word first, nameBut second | nameBut first, word second => first == second
  | word _, other second | nameBut _, other second | other second, word _
  | other second, nameBut _ => second == .name
  | nameBut _, nameBut _ | other _, other _ => false

theorem not_shows_of_apart {first second : Sign} {found : Lexeme}
    (apart : first.apart second = true) (shows : first.Shows found = true) :
    second.Shows found = false := by
  cases first <;> cases second <;> simp_all [Sign.apart, Sign.Shows] <;>
    grind [Lexeme.kind]

@[simp] theorem shows_other {kind : TokenKind} {found : Lexeme} :
    (Sign.other kind).Shows found = true ↔ found.kind ≠ kind := by
  simp [Shows]

@[simp] theorem shows_kind {kind : TokenKind} {found : Lexeme} :
    (Sign.kind kind).Shows found = true ↔ found.kind = kind := by
  simp [Shows]

@[simp] theorem shows_mark {punctuator : Punctuator} {found : Lexeme} :
    (mark punctuator).Shows found = true ↔ found = .punctuator punctuator := by
  cases found <;> simp [mark, Shows, Lexeme.kind]

@[simp] theorem shows_word {text : String} {found : Lexeme} :
    (word text).Shows found = true ↔ found = .name text := by
  simp [Shows]

end Sign

def Shown (signs : List Sign) (found : Lexeme) : Prop :=
  ∃ sign ∈ signs, sign.Shows found = true

def Apart (first second : List Sign) : Bool :=
  first.all fun sign => second.all sign.apart

@[simp] theorem apart_append {first second third : List Sign} :
    Apart first (second ++ third) = true ↔
      Apart first second = true ∧ Apart first third = true := by
  simp only [Apart, List.all_append, List.all_eq_true, Bool.and_eq_true]
  grind

namespace Shown

variable {first second : List Sign} {found : Lexeme}

@[simp] theorem nil_iff : Shown [] found ↔ False := by simp [Shown]

@[simp] theorem cons_iff {sign : Sign} :
    Shown (sign :: second) found ↔ sign.Shows found = true ∨ Shown second found := by
  simp [Shown]

@[simp] theorem append_iff :
    Shown (first ++ second) found ↔ Shown first found ∨ Shown second found := by
  simp only [Shown, List.mem_append, or_and_right, exists_or]

instance : Decidable (Shown first found) :=
  inferInstanceAs (Decidable (∃ sign ∈ first, sign.Shows found = true))

theorem of_subset (shown : Shown first found) (subset : first ⊆ second) :
    Shown second found := by
  obtain ⟨sign, member, shows⟩ := shown
  exact ⟨sign, subset member, shows⟩

theorem not_of_apart (shown : Shown first found) (apart : Apart first second = true) :
    ¬ Shown second found := by
  rintro ⟨other, member', shows'⟩
  obtain ⟨sign, member, shows⟩ := shown
  simp only [Apart, List.all_eq_true] at apart
  rw [Sign.not_shows_of_apart (apart sign member other member') shows] at shows'
  cases shows'

end Shown

/-! ## Phrases -/

/-- What is written from one place to another, with as many levels of nested nodes
as are given. -/
abbrev Phrase (α : Type) := Nat → Place → α → Place → Prop

namespace Phrase

def pure (value : α) : Phrase α :=
  fun _ place found after => found = value ∧ after = place

def token (means : Lexeme → α → Prop) : Phrase α :=
  fun _ place value after => ∃ found, place.Covers [found] after ∧ means found value

def bind (first : Phrase α) (second : α → Phrase β) : Phrase β :=
  fun depth place value after =>
    ∃ given middle, first depth place given middle ∧ second given depth middle value after

def located (extentOf : Nat → Nat → Extent) (phrase : Phrase (Extent → α)) : Phrase α :=
  fun depth place value after =>
    ∃ build, phrase depth place build after ∧
      value = build (extentOf place.ordinal after.ordinal)

def either (first second : Phrase α) : Phrase α :=
  fun depth place value after => first depth place value after ∨
    second depth place value after

/-- A phrase, or nothing with a token after it that shows none of the signs -/
def barring (phrase : Phrase α) (value : α) (signs : List Sign) : Phrase α :=
  phrase.either fun _ place found after =>
    found = value ∧ after = place ∧ ¬ Shown signs place.current

def written (noteOf : Nat → Nat → Extent) (parts : α → List (Part Extent)) : Phrase α :=
  fun depth place value after => Spells noteOf depth (parts value) place after

def deeper (phrase : Phrase α) : Phrase α :=
  fun depth place value after =>
    ∃ shallower, depth = shallower + 1 ∧ phrase shallower place value after

/-- One phrase after another, once for each value -/
def star (item : Phrase α) : Phrase (List α)
  | _, place, [], after => after = place
  | depth, place, value :: values, after =>
      ∃ middle, item depth place value middle ∧ star item depth middle values after

def spelled (spelling : Spelling) : Phrase Unit :=
  token fun found _ => spelling.Fits found

def enclosed (item : Phrase α) (opening closing : Punctuator) : Phrase (List α) :=
  (spelled (.mark opening)).bind fun _ => item.star.bind fun items =>
    (spelled (.mark closing)).bind fun _ => pure items

def many (item : Phrase α) (opening closing : Punctuator) : Phrase (List α) :=
  fun depth place items after => items ≠ [] ∧
    enclosed item opening closing depth place items after

def perhaps (spelling : Spelling) : Phrase Bool :=
  ((spelled spelling).bind fun _ => pure true).either (pure false)

def separated (item : Phrase α) (separator : Punctuator) : Phrase (List α) :=
  (perhaps (.mark separator)).bind fun _ => item.bind fun first =>
    (((spelled (.mark separator)).bind fun _ => item).star).bind fun others =>
      pure (first :: others)

section

variable {phrase other : Phrase α} {depth : Nat} {place after : Place} {value : α}

@[simp] theorem pure_iff {found : α} :
    pure value depth place found after ↔ found = value ∧ after = place := Iff.rfl

theorem spelled_iff {spelling : Spelling} {value : Unit} :
    spelled spelling depth place value after ↔
      ∃ found, place.Covers [found] after ∧ spelling.Fits found := Iff.rfl

@[simp] theorem mark_iff {mark : Punctuator} {value : Unit} :
    spelled (.mark mark) depth place value after ↔
      place.Covers [.punctuator mark] after := by
  simp [spelled_iff, Spelling.mark, Spelling.Fits]

@[simp] theorem word_iff {text : String} {value : Unit} :
    spelled (.word text) depth place value after ↔ place.Covers [.name text] after := by
  simp [spelled_iff, Spelling.word, Spelling.Fits]

@[simp] theorem bind_iff {second : α → Phrase β} {value : β} :
    phrase.bind second depth place value after ↔
      ∃ given middle, phrase depth place given middle ∧
      second given depth middle value after :=
  Iff.rfl

@[simp] theorem located_iff {extentOf : Nat → Nat → Extent}
    {phrase : Phrase (Extent → α)} :
    phrase.located extentOf depth place value after ↔
      ∃ build, phrase depth place build after ∧
        value = build (extentOf place.ordinal after.ordinal) := Iff.rfl

@[simp] theorem either_iff :
    phrase.either other depth place value after ↔
      phrase depth place value after ∨ other depth place value after := Iff.rfl

@[simp] theorem written_iff {noteOf : Nat → Nat → Extent}
    {parts : α → List (Part Extent)} :
    written noteOf parts depth place value after ↔
      Spells noteOf depth (parts value) place after :=
  Iff.rfl

@[simp] theorem deeper_iff :
    phrase.deeper depth place value after ↔
      ∃ shallower, depth = shallower + 1 ∧ phrase shallower place value after := Iff.rfl

@[simp] theorem star_nil_iff : phrase.star depth place [] after ↔ after = place := Iff.rfl

@[simp] theorem star_cons_iff {values : List α} :
    phrase.star depth place (value :: values) after ↔
      ∃ middle, phrase depth place value middle ∧ phrase.star depth middle values after :=
        Iff.rfl

theorem star_iff_of_iff {allowed : α → Bool} {values : List α}
    (same : ∀ place value after,
      other depth place value after ↔
        allowed value = true ∧ phrase depth place value after) :
    other.star depth place values after ↔
      values.all allowed = true ∧ phrase.star depth place values after := by
  induction values generalizing place with
  | nil => simp
  | cons value values induction =>
      simp only [star_cons_iff, same, induction, List.all_cons, Bool.and_eq_true]
      constructor
      · rintro ⟨middle, ⟨fits, holds⟩, fit, rest⟩
        exact ⟨⟨fits, fit⟩, middle, holds, rest⟩
      · rintro ⟨⟨fits, fit⟩, middle, holds, rest⟩
        exact ⟨middle, ⟨fits, holds⟩, fit, rest⟩

theorem separated_and_iff {allowed : α → Bool} {values : List α}
    {separator : Punctuator} :
    separated (fun depth place value after => allowed value = true ∧
      phrase depth place value after)
        separator depth place values after ↔
      values.all allowed = true ∧
      phrase.separated separator depth place values after := by
  have same : ∀ place value after,
      ((spelled (.mark separator)).bind fun _ depth place value after =>
        allowed value = true ∧ phrase depth place value after) depth place value after ↔
      allowed value = true ∧
      ((spelled (.mark separator)).bind fun _ => phrase) depth place value after := by
    intro place value after
    simp only [bind_iff]
    grind
  constructor
  · rintro ⟨marked, _, mark, first, _, ⟨fits, holds⟩, others, _, rest, rfl, rfl⟩
    obtain ⟨fit, rest⟩ := (star_iff_of_iff same).mp rest
    exact ⟨by simp_all, marked, _, mark, first, _, holds, others, _, rest, rfl, rfl⟩
  · rintro ⟨fits, marked, _, mark, first, _, holds, others, _, rest, rfl, rfl⟩
    rw [List.all_cons, Bool.and_eq_true] at fits
    exact ⟨marked, _, mark, first, _, ⟨fits.1, holds⟩, others, _,
      (star_iff_of_iff same).mpr ⟨fits.2, rest⟩, rfl, rfl⟩

end

/-- The tokens `covered` make up the phrase, in front of the tokens `ahead`. -/
def Holds (phrase : Phrase α) (depth ordinal : Nat)
    (covered ahead : List Lexeme) (value : α) :
    Prop :=
  phrase depth ⟨ordinal, covered ++ ahead⟩ value ⟨ordinal + covered.length, ahead⟩

theorem Holds.bind {phrase : Phrase α} {second : α → Phrase β} {depth ordinal : Nat}
    {before behind ahead : List Lexeme} {given : α} {value : β}
    (holds : phrase.Holds depth ordinal before (behind ++ ahead) given)
    (holds' : (second given).Holds depth (ordinal + before.length) behind ahead value) :
    (phrase.bind second).Holds depth ordinal (before ++ behind) ahead value := by
  refine ⟨given, ⟨ordinal + before.length, behind ++ ahead⟩, ?_, ?_⟩
  · rw [List.append_assoc]
    exact holds
  · rw [List.length_append, ← Nat.add_assoc]
    exact holds'

end Phrase

/-! ## Profiles -/

namespace Lexeme

/-- A name or a mark. A text can be given for these. -/
def isPlain : Lexeme → Bool
  | punctuator _ => true
  | name text => text.toList.head?.any isNameStart && text.toList.all isNameContinue
  | _ => false

end Lexeme

/-- What can be told of a phrase from a single token. -/
structure Profile where
  /-- Whether the phrase may be empty. -/
  nullable : Bool
  /-- What the first token shows. -/
  first : List Sign
  /-- What the token after the phrase shows if it could as well belong to it. -/
  tails : List Sign
  /-- What the token after the phrase must not show. -/
  barred : List Sign
  /-- One way to write the phrase. -/
  sample : List Lexeme

namespace Profile

def empty : Profile := ⟨true, [], [], [], []⟩

def single (signs : List Sign) (sample : Lexeme) : Profile :=
  ⟨false, signs, [], [], [sample]⟩

def append (first second : Profile) : Profile where
  nullable := first.nullable && second.nullable
  first := first.first ++ if first.nullable then second.first else []
  tails := second.tails ++ if second.nullable then first.tails else []
  barred := second.barred ++ if second.nullable then first.barred else []
  sample := first.sample ++ second.sample

def star (item : Profile) (promised : List Sign) : Profile :=
  ⟨true, item.first, promised ++ item.tails, item.barred, []⟩

/-- Of a phrase that is read if the current token shows one of the signs, or
else another -/
def choose (begins signs : List Sign) (first second : Profile) : Profile where
  nullable := second.nullable
  first := begins ++ second.first
  tails := first.tails ++ second.tails ++ if second.nullable then signs else []
  barred := first.barred ++ second.barred
  sample := second.sample

/-- One phrase can be told from another that follows it. -/
def Precedes (first second : Profile) : Prop :=
  Apart first.tails second.first = true ∧ (second.sample = [] → second.nullable = true) ∧
    (∀ found ∈ second.sample.head?, ¬ Shown first.barred found) ∧
      ∀ lexeme ∈ second.sample, lexeme.isPlain = true

instance (first second : Profile) : Decidable (first.Precedes second) :=
  inferInstanceAs (Decidable (_ ∧ _ ∧ _ ∧ _))

@[simp] theorem append_empty (profile : Profile) : profile.append .empty = profile := by
  simp [append, empty]

theorem precedes_empty (profile : Profile) : profile.Precedes .empty := by
  simp [Precedes, Apart, empty]

/-- Phrases with the profile can be told from one another and from a mark at the end. -/
def RepeatsUntil (profile : Profile) (closing : Punctuator) : Prop :=
  profile.nullable = false ∧
    Apart profile.tails (profile.first ++ [.mark closing]) = true ∧
    Apart profile.first [.mark closing] = true ∧
    ¬ Shown profile.barred (.punctuator closing) ∧
      ∀ lexeme ∈ profile.sample, lexeme.isPlain = true

instance (profile : Profile) (closing : Punctuator) :
    Decidable (profile.RepeatsUntil closing) :=
  inferInstanceAs (Decidable (_ ∧ _ ∧ _ ∧ _ ∧ _))

theorem Precedes.bare {first second : Profile} (precedes : first.Precedes second)
    {ahead : List Lexeme} (bare : ¬ Shown (first.append second).barred (foremost ahead)) :
    ¬ Shown first.barred (foremost (second.sample ++ ahead)) := by
  obtain ⟨_, nullable, clear, _⟩ := precedes
  cases equal : second.sample with
  | nil =>
      intro shown
      apply bare
      simp only [append, Shown.append_iff, nullable equal, if_true]
      exact .inr shown
  | cons found rest =>
      refine clear found ?_
      rw [equal]
      rfl

/-- The profile tells the truth about a phrase. -/
structure Describes (profile : Profile) (phrase : Phrase α) : Prop where
  starts : ∀ {depth place value after}, phrase depth place value after →
    profile.nullable = true ∧ after = place ∨
      Shown profile.first place.current ∧ place.ordinal < after.ordinal
  sample : ∀ {depth ahead} ordinal, 0 < depth → ¬ Shown profile.barred (foremost ahead) →
    ∃ value, phrase.Holds depth ordinal profile.sample ahead value

namespace Describes

variable {profile next : Profile} {phrase : Phrase α}

theorem le (describes : profile.Describes phrase) {depth place value after}
    (holds : phrase depth place value after) : place.ordinal ≤ after.ordinal := by
  rcases describes.starts holds with ⟨_, rfl⟩ | ⟨_, lt⟩
  · exact Nat.le_refl _
  · exact Nat.le_of_lt lt

theorem pure (value : α) : Profile.empty.Describes (Phrase.pure value) where
  starts holds := .inl ⟨rfl, holds.2⟩
  sample _ _ _ := ⟨value, rfl, rfl⟩

theorem token {means : Lexeme → α → Prop} {signs : List Sign} {sample : Lexeme}
    (shows : ∀ found value, means found value → Shown signs found) (value : α)
    (sampled : means sample value) :
    (single signs sample).Describes (Phrase.token means) where
  starts := by
    rintro depth place value after ⟨found, covers, said⟩
    right
    rw [covers.current, covers.2]
    exact ⟨shows _ _ said, Nat.lt_succ_self _⟩
  sample _ _ _ := ⟨value, sample, ⟨rfl, rfl⟩, sampled⟩

theorem bind {second : α → Phrase β} (describes : profile.Describes phrase)
    (describes' : ∀ given, next.Describes (second given))
    (precedes : profile.Precedes next) :
    (profile.append next).Describes (phrase.bind second) where
  starts := by
    rintro depth place value after ⟨given, middle, holds, holds'⟩
    have le := (describes' given).le holds'
    rcases describes.starts holds with ⟨nullable, rfl⟩ | ⟨shown, lt⟩
    · simpa [append, nullable]
        using ((describes' given).starts holds').imp_right fun ⟨shown, lt⟩ =>
          ⟨.inr shown, lt⟩
    · exact .inr ⟨Shown.append_iff.mpr (.inl shown), Nat.lt_of_lt_of_le lt le⟩
  sample := by
    intro depth ahead ordinal positive bare
    obtain ⟨given, holds⟩ := describes.sample ordinal positive (precedes.bare bare)
    obtain ⟨value, holds'⟩ := (describes' given).sample (ordinal + profile.sample.length)
      positive (fun shown => bare (Shown.append_iff.mpr (.inl shown)))
    exact ⟨value, holds.bind holds'⟩

theorem map (describes : profile.Describes phrase) (build : α → β) :
    profile.Describes (phrase.bind fun value => Phrase.pure (build value)) := by
  have describes' :=
    describes.bind (fun value => .pure (build value)) profile.precedes_empty
  rwa [append_empty] at describes'

theorem located {extentOf : Nat → Nat → Extent} {phrase : Phrase (Extent → α)}
    (describes : profile.Describes phrase) :
    profile.Describes (phrase.located extentOf) where
  starts := by
    rintro depth place value after ⟨build, holds, _⟩
    exact describes.starts holds
  sample := by
    intro depth ahead ordinal positive bare
    obtain ⟨build, holds⟩ := describes.sample ordinal positive bare
    exact ⟨_, build, holds, rfl⟩

theorem star (describes : profile.Describes phrase) (nonempty : profile.nullable = false)
    (promised : List Sign) : (profile.star promised).Describes phrase.star where
  starts := by
    intro depth place values after holds
    induction values generalizing place with
    | nil => exact .inl ⟨rfl, holds⟩
    | cons value values induction =>
        obtain ⟨middle, holds, rest⟩ := holds
        rcases describes.starts holds with ⟨nullable, _⟩ | ⟨shown, lt⟩
        · simp [nonempty] at nullable
        · right
          refine ⟨shown, ?_⟩
          rcases induction rest with ⟨_, rfl⟩ | ⟨_, lt'⟩
          · exact lt
          · exact Nat.lt_trans lt lt'
  sample _ _ _ := ⟨[], rfl⟩

theorem choose {begins signs : List Sign} {first : Profile} {other : Phrase α}
    (starts : ∀ {depth place value after}, other depth place value after →
      Shown begins place.current ∧ place.ordinal < after.ordinal)
    (describes : profile.Describes phrase) :
    (choose begins signs first profile).Describes (other.either phrase) where
  starts holds := by
    rcases holds with holds | holds
    · exact .inr ⟨Shown.append_iff.mpr (.inl (starts holds).1), (starts holds).2⟩
    · exact (describes.starts holds).imp_right fun ⟨shown, lt⟩ =>
        ⟨Shown.append_iff.mpr (.inr shown), lt⟩
  sample ordinal positive bare := by
    obtain ⟨value, holds⟩ := describes.sample ordinal positive fun shown =>
      bare (Shown.append_iff.mpr (.inr shown))
    exact ⟨value, .inr holds⟩

theorem congr {phrase' : Phrase α} (describes : profile.Describes phrase)
    (same : ∀ depth place value after,
      phrase depth place value after ↔ phrase' depth place value after) :
    profile.Describes phrase' where
  starts holds := describes.starts ((same _ _ _ _).mpr holds)
  sample ordinal positive bare := by
    obtain ⟨value, holds⟩ := describes.sample ordinal positive bare
    exact ⟨value, (same _ _ _ _).mp holds⟩

end Describes

end Profile

end GraphQL
