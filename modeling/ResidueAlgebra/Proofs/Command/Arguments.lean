import Mathlib.Data.List.Forall2
import ResidueAlgebra.Command.Arguments
import ResidueAlgebra.Proofs.Computation
import ResidueAlgebra.Proofs.Text.Integer

/-!
# The grammar of command lines

A command is written as its name and its parameters in decimal, and a command line is a command with
flags put in anywhere between its words. `Piece` keeps track of which arguments are words and which
belong to a flag, since the path of a flag may look like a flag itself. Reading a command line gives
back the command and the flags, and nothing else is read as a command: up to the spelling of the
integers, every accepted command line is one of these.
-/
set_option autoImplicit false
namespace ResidueAlgebra

namespace Invocation

/-! ## Flags among the words -/

/-- A word of the command, or a flag with the path that belongs to it. -/
inductive Piece where
  | word (text : String)
  | json
  | config (path : String)
  deriving DecidableEq

def Piece.arguments : Piece → List String
  | word text => [text]
  | json => ["--json"]
  | config path => ["--config", path]

def commandLine (pieces : List Piece) : List String :=
  pieces.flatMap Piece.arguments

def words : List Piece → List String
  | [] => []
  | .word text :: rest => text :: words rest
  | _ :: rest => words rest

def paths : List Piece → List String
  | [] => []
  | .config path :: rest => path :: paths rest
  | _ :: rest => paths rest

/-- What the flags of a command line come to: the last path counts. -/
def Flags.ofPieces (pieces : List Piece) : Flags :=
  ⟨decide (Piece.json ∈ pieces), (paths pieces).getLast?, words pieces⟩

theorem Flags.ofPieces_word (text : String) (rest : List Piece) :
    ofPieces (.word text :: rest)
      = { ofPieces rest with rest := text :: (ofPieces rest).rest } := by
  simp [ofPieces, words, paths]

theorem Flags.ofPieces_json (rest : List Piece) :
    ofPieces (.json :: rest) = { ofPieces rest with json := true } := by
  simp [ofPieces, words, paths]

theorem Flags.ofPieces_config (path : String) (rest : List Piece) :
    ofPieces (.config path :: rest)
      = { ofPieces rest with configPath := some ((ofPieces rest).configPath.getD path) } := by
  simp [ofPieces, words, paths, List.getLast?_cons]

def IsFlag (text : String) : Prop :=
  text = "--json" ∨ text = "--config"

theorem splitFlags_json (arguments : List String) :
    splitFlags ("--json" :: arguments)
      = (splitFlags arguments >>= fun flags => .ok { flags with json := true }) := by
  cases arguments <;> rfl

theorem splitFlags_config (path : String) (arguments : List String) :
    splitFlags ("--config" :: path :: arguments)
      = (splitFlags arguments >>= fun flags =>
          .ok { flags with configPath := some (flags.configPath.getD path) }) := by
  simp [splitFlags]

theorem splitFlags_word {text : String} (plain : ¬ IsFlag text) (arguments : List String) :
    splitFlags (text :: arguments)
      = (splitFlags arguments >>= fun flags => .ok { flags with rest := text :: flags.rest }) := by
  obtain ⟨notJson, notConfig⟩ := not_or.mp plain
  cases arguments with
  | nil => simp [splitFlags, notJson, notConfig]
  | cons next others => simp [splitFlags, notJson, notConfig]

theorem splitFlags_commandLine {pieces : List Piece}
    (plain : ∀ text ∈ words pieces, ¬ IsFlag text) :
    splitFlags (commandLine pieces) = .ok (Flags.ofPieces pieces) := by
  induction pieces with
  | nil => rfl
  | cons piece rest ih =>
      rw [commandLine, List.flatMap_cons, ← commandLine]
      cases piece with
      | word text =>
          obtain ⟨headPlain, restPlain⟩ := List.forall_mem_cons.mp plain
          rw [Piece.arguments, List.singleton_append, splitFlags_word headPlain, ih restPlain,
            Outcome.ok_bind, Flags.ofPieces_word]
      | json =>
          rw [Piece.arguments, List.singleton_append, splitFlags_json, ih plain, Outcome.ok_bind,
            Flags.ofPieces_json]
      | config path =>
          rw [Piece.arguments, List.cons_append, List.singleton_append, splitFlags_config, ih plain,
            Outcome.ok_bind, Flags.ofPieces_config]

theorem pieces_of_splitFlags {arguments : List String} {flags : Flags}
    (success : splitFlags arguments = .ok flags) :
    ∃ pieces, commandLine pieces = arguments ∧ flags = Flags.ofPieces pieces := by
  fun_induction splitFlags arguments generalizing flags with
  | case1 =>
      cases success
      exact ⟨[], rfl, rfl⟩
  | case2 =>
      cases success
      exact ⟨[.json], rfl, rfl⟩
  | case3 => cases success
  | case4 last =>
      cases success
      exact ⟨[.word last], rfl, rfl⟩
  | case5 second others ih =>
      obtain ⟨inner, split, success⟩ := Outcome.bind_eq_ok success
      cases success
      obtain ⟨pieces, written, rfl⟩ := ih split
      exact ⟨.json :: pieces, by rw [← written]; rfl, (Flags.ofPieces_json pieces).symm⟩
  | case6 second others _ ih =>
      obtain ⟨inner, split, success⟩ := Outcome.bind_eq_ok success
      cases success
      obtain ⟨pieces, written, rfl⟩ := ih split
      exact ⟨.config second :: pieces, by rw [← written]; rfl,
        (Flags.ofPieces_config second pieces).symm⟩
  | case7 first second others _ _ ih =>
      obtain ⟨inner, split, success⟩ := Outcome.bind_eq_ok success
      cases success
      obtain ⟨pieces, written, rfl⟩ := ih split
      exact ⟨.word first :: pieces, by rw [← written]; rfl, (Flags.ofPieces_word first pieces).symm⟩

end Invocation

/-! ## Lists in step -/

theorem Outcome.mapM_eq_ok_iff {α β : Type} {transform : α → Outcome β} {items : List α}
    {results : List β} :
    items.mapM transform = .ok results ↔
      List.Forall₂ (fun result item => transform item = .ok result) results items := by
  induction items generalizing results with
  | nil =>
      rw [List.mapM_nil]
      constructor
      · intro success
        cases success
        exact .nil
      · intro paired
        cases paired
        rfl
  | cons item rest ih =>
      rw [List.mapM_cons]
      constructor
      · intro success
        obtain ⟨first, head, success⟩ := bind_eq_ok success
        obtain ⟨others, tail, success⟩ := bind_eq_ok success
        cases success
        exact .cons head (ih.mp tail)
      · intro paired
        cases paired with
        | cons head tail =>
            rw [head, ok_bind, ih.mpr tail]
            rfl

theorem forall₂_append_left_iff {α β : Type} {Related : α → β → Prop} {front back : List α}
    {others : List β} :
    List.Forall₂ Related (front ++ back) others ↔
      ∃ first second, others = first ++ second ∧ List.Forall₂ Related front first ∧
        List.Forall₂ Related back second := by
  constructor
  · intro paired
    have first := List.forall₂_take front.length paired
    have second := List.forall₂_drop front.length paired
    rw [List.take_left] at first
    rw [List.drop_left] at second
    exact ⟨_, _, (List.take_append_drop front.length others).symm, first, second⟩
  · intro ⟨first, second, joined, paired, remaining⟩
    rw [joined]
    exact List.rel_append paired remaining

theorem exists_of_mem_of_forall₂ {α β : Type} {Related : α → β → Prop} {items : List α}
    {others : List β} (paired : List.Forall₂ Related items others) {other : β}
    (member : other ∈ others) : ∃ item ∈ items, Related item other := by
  induction paired with
  | nil => cases member
  | @cons first second rest remaining head _ ih =>
      rcases List.mem_cons.mp member with rfl | later
      · exact ⟨first, List.mem_cons_self .., head⟩
      · obtain ⟨item, present, related⟩ := ih later
        exact ⟨item, List.mem_cons_of_mem first present, related⟩

/-! ## Words of a command -/

inductive Part where
  | keyword (text : String)
  | signed (value : Int)
  | unsigned (value : Nat)

namespace Part

def text : Part → String
  | keyword text => text
  | signed value => toString value
  | unsigned value => toString value

/-- The texts that stand for a word; numbers have several. -/
def SpelledBy : Part → String → Prop
  | keyword fixed, text => text = fixed
  | signed value, text => Text.IntegerSpelling text value
  | unsigned value, text => Text.NaturalSpelling text value

def InRange : Part → Prop
  | keyword _ => True
  | signed value => -(Text.signedLimit : Int) ≤ value ∧ value < Text.signedLimit
  | unsigned value => value < Word.long

def Accepts (part : Part) (text : String) : Prop :=
  part.InRange ∧ part.SpelledBy text

theorem spelledBy_text (part : Part) : part.SpelledBy part.text := by
  cases part with
  | keyword text => rfl
  | signed value => exact Text.toString_integerSpelling value
  | unsigned value => exact Text.toString_naturalSpelling value

theorem Accepts.eq_keyword {part : Part} {text : String} (accepted : part.Accepts text)
    (noInteger : Text.integer text = none) (noWord : Text.word text = none) :
    part = .keyword text := by
  obtain ⟨inRange, spelled⟩ := accepted
  cases part with
  | keyword fixed =>
      cases spelled
      rfl
  | signed value =>
      have read := Text.integer_eq_some_iff.mpr ⟨spelled, inRange⟩
      rw [noInteger] at read
      cases read
  | unsigned value =>
      have read := Text.word_eq_some_iff.mpr ⟨spelled, inRange⟩
      rw [noWord] at read
      cases read

end Part

namespace Command

def parameters : Command → List Part
  | decompose coefficients p => coefficients.map .signed ++ [.unsigned p]
  | gcd left right p =>
      left.map .signed ++ .keyword "|" :: (right.map .signed ++ [.unsigned p])
  | berlekamp coefficients p => coefficients.map .signed ++ [.unsigned p]
  | discreteLog g a n => [.unsigned g, .unsigned a, .unsigned n]
  | help => []

def parts (command : Command) : List Part :=
  .keyword command.name :: command.parameters

def rendered (command : Command) : List String :=
  command.parts.map Part.text

def operands : Command → List (List Int)
  | decompose coefficients _ => [coefficients]
  | gcd left right _ => [left, right]
  | berlekamp coefficients _ => [coefficients]
  | discreteLog .. => []
  | help => []

/-- A command that computes something, with coefficients in every list and numbers that fit. -/
structure Regular (command : Command) : Prop where
  computes : command ≠ .help
  filled : ∀ operand ∈ command.operands, operand ≠ []
  inRange : ∀ part ∈ command.parts, part.InRange

theorem plain_of_accepts {command : Command} {texts : List String}
    (accepted : List.Forall₂ Part.Accepts command.parts texts) :
    ∀ text ∈ texts, ¬ Invocation.IsFlag text := by
  intro text member flag
  obtain ⟨part, present, accepts⟩ := exists_of_mem_of_forall₂ accepted member
  have fixed : part = .keyword text := by
    rcases flag with rfl | rfl
    · exact accepts.eq_keyword rfl rfl
    · exact accepts.eq_keyword rfl rfl
  subst fixed
  cases command <;> rcases flag with rfl | rfl <;> simp [parts, name, parameters] at present

theorem spelledBy_rendered (command : Command) :
    List.Forall₂ Part.SpelledBy command.parts command.rendered :=
  List.forall₂_map_right_iff.mpr (List.forall₂_same.mpr fun part _ => part.spelledBy_text)

end Command

namespace Invocation

/-! ## Readers of the words -/

theorem parseInteger_eq_ok_iff {text : String} {value : Int} :
    parseInteger text = .ok value ↔ (Part.signed value).Accepts text := by
  rw [Part.Accepts, Part.InRange, Part.SpelledBy, and_comm, ← Text.integer_eq_some_iff]
  unfold parseInteger
  cases Text.integer text with
  | none => simp [Outcome.reject, Outcome.fault]
  | some number => simp

theorem parseUnsigned_eq_ok_iff {text : String} {value : Nat} :
    parseUnsigned text = .ok value ↔ (Part.unsigned value).Accepts text := by
  rw [Part.Accepts, Part.InRange, Part.SpelledBy, and_comm, ← Text.word_eq_some_iff]
  unfold parseUnsigned
  cases Text.word text with
  | none => simp [Outcome.reject, Outcome.fault]
  | some number => simp

theorem parseIntegers_eq_ok_iff {texts : List String} {values : List Int} :
    texts.mapM parseInteger = .ok values ↔
      List.Forall₂ Part.Accepts (values.map .signed) texts := by
  simp only [Outcome.mapM_eq_ok_iff, List.forall₂_map_left_iff, parseInteger_eq_ok_iff]

theorem parsePolynomial_eq_ok_iff {parameters : List String} {coefficients : List Int} {p : Nat} :
    parsePolynomial parameters = .ok (coefficients, p) ↔
      coefficients ≠ [] ∧
        List.Forall₂ Part.Accepts (coefficients.map .signed ++ [.unsigned p]) parameters := by
  rw [forall₂_append_left_iff]
  constructor
  · intro success
    unfold parsePolynomial at success
    split at success
    · cases success
    · rename_i last ended
      obtain ⟨front, rfl⟩ := List.getLast?_eq_some_iff.mp ended
      rw [List.dropLast_concat] at success
      split at success
      · cases success
      · rename_i filled
        obtain ⟨values, integers, success⟩ := Outcome.bind_eq_ok success
        obtain ⟨modulus, word, success⟩ := Outcome.bind_eq_ok success
        cases success
        have lengths := Outcome.mapM_length integers
        refine ⟨?_, front, [last], rfl, parseIntegers_eq_ok_iff.mp integers,
          .cons (parseUnsigned_eq_ok_iff.mp word) .nil⟩
        rintro rfl
        exact filled (by simpa using lengths.symm)
  · intro ⟨filled, front, back, joined, integers, modulus⟩
    subst joined
    cases modulus with
    | @cons _ last _ _ word ended =>
        cases ended
        have read := parseIntegers_eq_ok_iff.mpr integers
        have nonempty : front ≠ [] := by
          rintro rfl
          exact filled (by simpa using integers)
        simp [parsePolynomial, nonempty, read, parseUnsigned_eq_ok_iff.mpr word]

theorem splitBar_eq_some_iff {parameters left right : List String} :
    splitBar parameters = some (left, right) ↔
      parameters = left ++ "|" :: right ∧ "|" ∉ left := by
  induction parameters generalizing left with
  | nil => simp [splitBar]
  | cons parameter rest ih =>
      rw [splitBar]
      by_cases bar : parameter = "|"
      · subst bar
        cases left with
        | nil => simp
        | cons first others =>
            simp only [↓reduceIte, List.cons_append, List.cons.injEq, List.mem_cons, not_or]
            grind
      · rw [if_neg bar, Option.map_eq_some_iff]
        cases left with
        | nil => simp [bar]
        | cons first others =>
            have inner := @ih others
            grind

/-- A bar is no integer, so the first bar is the one between the operands. -/
theorem bar_not_mem_of_accepts {values : List Int} {texts : List String}
    (accepted : List.Forall₂ Part.Accepts (values.map .signed) texts) : "|" ∉ texts := by
  intro member
  obtain ⟨part, present, accepts⟩ := exists_of_mem_of_forall₂ accepted member
  obtain ⟨value, _, rfl⟩ := List.mem_map.mp present
  cases accepts.eq_keyword rfl rfl

theorem parseGcd_eq_ok_iff {parameters : List String} {command : Command} :
    parseGcd parameters = .ok command ↔
      ∃ left right p, command = .gcd left right p ∧ left ≠ [] ∧ right ≠ [] ∧
        List.Forall₂ Part.Accepts
          (left.map .signed ++ .keyword "|" :: (right.map .signed ++ [.unsigned p]))
          parameters := by
  constructor
  · intro success
    unfold parseGcd at success
    split at success
    · cases success
    · rename_i front back cut
      obtain ⟨rfl, _⟩ := splitBar_eq_some_iff.mp cut
      obtain ⟨left, integers, success⟩ := Outcome.bind_eq_ok success
      obtain ⟨⟨right, p⟩, polynomial, success⟩ := Outcome.bind_eq_ok success
      dsimp only at success
      split at success
      · cases success
      · rename_i filled
        cases success
        obtain ⟨rightFilled, accepted⟩ := parsePolynomial_eq_ok_iff.mp polynomial
        refine ⟨left, right, p, rfl, by simpa using filled, rightFilled, ?_⟩
        exact forall₂_append_left_iff.mpr ⟨front, "|" :: back, rfl,
          parseIntegers_eq_ok_iff.mp integers, .cons ⟨trivial, rfl⟩ accepted⟩
  · intro ⟨left, right, p, same, leftFilled, rightFilled, accepted⟩
    obtain ⟨front, back, rfl, integers, rest⟩ := forall₂_append_left_iff.mp accepted
    obtain ⟨bar, others, ⟨_, rfl⟩, polynomial, rfl⟩ := List.forall₂_cons_left_iff.mp rest
    have cut : splitBar (front ++ "|" :: others) = some (front, others) :=
      splitBar_eq_some_iff.mpr ⟨rfl, bar_not_mem_of_accepts integers⟩
    have read := parsePolynomial_eq_ok_iff.mpr ⟨rightFilled, polynomial⟩
    simp [parseGcd, cut, parseIntegers_eq_ok_iff.mpr integers, read, leftFilled, same]

theorem parseDiscreteLog_eq_ok_iff {parameters : List String} {command : Command} :
    parseDiscreteLog parameters = .ok command ↔
      ∃ g a n, command = .discreteLog g a n ∧
        List.Forall₂ Part.Accepts [.unsigned g, .unsigned a, .unsigned n] parameters := by
  constructor
  · intro success
    unfold parseDiscreteLog at success
    split at success
    · obtain ⟨g, generator, success⟩ := Outcome.bind_eq_ok success
      obtain ⟨a, target, success⟩ := Outcome.bind_eq_ok success
      obtain ⟨n, modulus, success⟩ := Outcome.bind_eq_ok success
      cases success
      exact ⟨g, a, n, rfl, .cons (parseUnsigned_eq_ok_iff.mp generator)
        (.cons (parseUnsigned_eq_ok_iff.mp target)
          (.cons (parseUnsigned_eq_ok_iff.mp modulus) .nil))⟩
    · cases success
  · intro ⟨g, a, n, same, accepted⟩
    match parameters, accepted with
    | [_, _, _], .cons generator (.cons target (.cons modulus .nil)) =>
        simp [parseDiscreteLog, parseUnsigned_eq_ok_iff.mpr generator,
          parseUnsigned_eq_ok_iff.mpr target, parseUnsigned_eq_ok_iff.mpr modulus, same]

/-! ## Commands -/

theorem parseCommand_sound {texts : List String} {command : Command}
    (success : parseCommand texts = .ok command) (computes : command ≠ .help) :
    (∀ operand ∈ command.operands, operand ≠ []) ∧
      List.Forall₂ Part.Accepts command.parts texts := by
  unfold parseCommand at success
  split at success
  · cases success
    exact absurd rfl computes
  · rename_i name parameters
    split at success
    · cases success
      exact absurd rfl computes
    · split at success
      · rename_i named
        obtain ⟨⟨coefficients, p⟩, read, success⟩ := Outcome.bind_eq_ok success
        cases success
        obtain ⟨filled, accepted⟩ := parsePolynomial_eq_ok_iff.mp read
        exact ⟨by simpa [Command.operands] using filled, .cons ⟨trivial, named⟩ accepted⟩
      · split at success
        · rename_i named
          obtain ⟨⟨coefficients, p⟩, read, success⟩ := Outcome.bind_eq_ok success
          cases success
          obtain ⟨filled, accepted⟩ := parsePolynomial_eq_ok_iff.mp read
          exact ⟨by simpa [Command.operands] using filled, .cons ⟨trivial, named⟩ accepted⟩
        · split at success
          · rename_i named
            obtain ⟨left, right, p, rfl, leftFilled, rightFilled, accepted⟩ :=
              parseGcd_eq_ok_iff.mp success
            exact ⟨by simp [Command.operands, leftFilled, rightFilled],
              .cons ⟨trivial, named⟩ accepted⟩
          · split at success
            · rename_i named
              obtain ⟨g, a, n, rfl, accepted⟩ := parseDiscreteLog_eq_ok_iff.mp success
              exact ⟨by simp [Command.operands], .cons ⟨trivial, named⟩ accepted⟩
            · cases success

theorem parseCommand_complete {texts : List String} {command : Command}
    (computes : command ≠ .help) (filled : ∀ operand ∈ command.operands, operand ≠ [])
    (accepted : List.Forall₂ Part.Accepts command.parts texts) :
    parseCommand texts = .ok command := by
  obtain ⟨name, texts, ⟨_, rfl⟩, rest, rfl⟩ := List.forall₂_cons_left_iff.mp accepted
  cases command with
  | help => exact absurd rfl computes
  | decompose coefficients p =>
      have read := parsePolynomial_eq_ok_iff.mpr ⟨filled _ (List.mem_cons_self ..), rest⟩
      simp [parseCommand, Command.name, read]
  | berlekamp coefficients p =>
      have read := parsePolynomial_eq_ok_iff.mpr ⟨filled _ (List.mem_cons_self ..), rest⟩
      simp [parseCommand, Command.name, read]
  | gcd left right p =>
      obtain ⟨leftFilled, filled⟩ := List.forall_mem_cons.mp filled
      obtain ⟨rightFilled, _⟩ := List.forall_mem_cons.mp filled
      have read := parseGcd_eq_ok_iff.mpr ⟨left, right, p, rfl, leftFilled, rightFilled, rest⟩
      simp [parseCommand, Command.name, read]
  | discreteLog g a n =>
      have read := parseDiscreteLog_eq_ok_iff.mpr ⟨g, a, n, rfl, rest⟩
      simp [parseCommand, Command.name, read]

theorem parse_commandLine {command : Command} (regular : command.Regular) {pieces : List Piece}
    (spelled : List.Forall₂ Part.SpelledBy command.parts (words pieces)) :
    parse (commandLine pieces)
      = .ok ⟨decide (Piece.json ∈ pieces), (paths pieces).getLast?, command⟩ := by
  have accepted : List.Forall₂ Part.Accepts command.parts (words pieces) :=
    (List.forall₂_and_left ..).mpr ⟨regular.inRange, spelled⟩
  have split := splitFlags_commandLine (Command.plain_of_accepts accepted)
  have read := parseCommand_complete regular.computes regular.filled accepted
  simp [parse, split, Flags.ofPieces, read]

theorem pieces_of_parse {arguments : List String} {invocation : Invocation}
    (success : parse arguments = .ok invocation) (computes : invocation.command ≠ .help) :
    invocation.command.Regular ∧
      ∃ pieces, commandLine pieces = arguments ∧
        List.Forall₂ Part.SpelledBy invocation.command.parts (words pieces) ∧
        invocation.json = decide (Piece.json ∈ pieces) ∧
        invocation.configPath = (paths pieces).getLast? := by
  obtain ⟨flags, split, success⟩ := Outcome.bind_eq_ok success
  obtain ⟨command, read, success⟩ := Outcome.bind_eq_ok success
  cases success
  obtain ⟨pieces, written, rfl⟩ := pieces_of_splitFlags split
  obtain ⟨filled, accepted⟩ := parseCommand_sound read computes
  obtain ⟨inRange, spelled⟩ := (List.forall₂_and_left ..).mp accepted
  exact ⟨⟨computes, filled, inRange⟩, pieces, written, spelled, rfl, rfl⟩

/-- Reading a command line inverts writing one. A command in decimal is read back under any placement
of flags among its words, with the last path and whether a JSON flag was given, and whatever is read
as a command that computes something is such a command line, up to the spelling of the integers. -/
theorem parse_inverts_rendering :
    (∀ command : Command, command.Regular →
      ∀ pieces, words pieces = command.rendered →
        parse (commandLine pieces)
          = .ok ⟨decide (Piece.json ∈ pieces), (paths pieces).getLast?, command⟩) ∧
    (∀ arguments json path, ∀ command : Command, command ≠ .help →
      (parse arguments = .ok ⟨json, path, command⟩ ↔
        command.Regular ∧
          ∃ pieces, commandLine pieces = arguments ∧
            List.Forall₂ Part.SpelledBy command.parts (words pieces) ∧
            json = decide (Piece.json ∈ pieces) ∧ path = (paths pieces).getLast?)) := by
  refine ⟨?_, ?_⟩
  · intro command regular pieces rendered
    apply parse_commandLine regular
    rw [rendered]
    exact command.spelledBy_rendered
  · intro arguments json path command computes
    constructor
    · intro success
      exact pieces_of_parse success computes
    · intro ⟨regular, pieces, written, spelled, flagged, last⟩
      rw [← written, parse_commandLine regular spelled, flagged, last]

/-- A path that looks like a flag and flags inside an operand; padded numbers and one with a sign. -/
theorem parse_inverts_rendering_both_ways :
    ((Command.gcd [1, 0, -1] [1, 1] 2).Regular ∧
      parse ["--config", "--json", "gcd", "1", "--json", "0", "-1", "|", "--config", "a.toml", "1",
          "1", "2"]
        = .ok ⟨true, some "a.toml", .gcd [1, 0, -1] [1, 1] 2⟩) ∧
    (parse ["dlog", "003", "+2", "7"] = .ok ⟨false, none, .discreteLog 3 2 7⟩ ∧
      ∃ pieces, commandLine pieces = ["dlog", "003", "+2", "7"] ∧
        List.Forall₂ Part.SpelledBy (Command.discreteLog 3 2 7).parts (words pieces)) := by
  refine ⟨?_, ?_⟩
  · have regular : (Command.gcd [1, 0, -1] [1, 1] 2).Regular := by
      constructor
      · exact Command.noConfusion
      · simp [Command.operands]
      · simp [Command.parts, Command.parameters, Part.InRange, Text.signedLimit, Word.long]
    let pieces : List Piece :=
      [.config "--json", .word "gcd", .word "1", .json, .word "0", .word "-1", .word "|",
        .config "a.toml", .word "1", .word "1", .word "2"]
    exact ⟨regular, parse_inverts_rendering.1 _ regular pieces rfl⟩
  · have success : parse ["dlog", "003", "+2", "7"] = .ok ⟨false, none, .discreteLog 3 2 7⟩ := by
      decide +kernel
    obtain ⟨_, pieces, written, spelled, _⟩ :=
      (parse_inverts_rendering.2 _ _ _ _ Command.noConfusion).mp success
    exact ⟨success, pieces, written, spelled⟩

end Invocation

end ResidueAlgebra
