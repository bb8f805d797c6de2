import Buster.Lib.Getopt
import Buster.Udp.Failure
import Buster.Udp.Portmask

/-!
# The options of the command line

`parse_args` has three tables to go by: the option string, the labels of the
`switch` and the long options. They differ on one option: the string has `N`, the
label is `n`.
-/

namespace Udp

open Imp Imp.Prog CString Getopt

def cmdLineOptNumaOn : Word := "numa".toList
def cmdLineOptPortmask : Word := "portmask".toList
def cmdLineOptRxConfig : Word := "config".toList
def cmdLineOptHelp : Word := "help".toList

def longOpts : List LongOption :=
  [⟨cmdLineOptNumaOn, false⟩, ⟨cmdLineOptPortmask, true⟩, ⟨cmdLineOptRxConfig, true⟩,
    ⟨cmdLineOptHelp, false⟩]

/-- What `getopt_long` is called with. -/
def optionTable (posixlyCorrect : Bool) : Table := ⟨"C:hNp:".toList, longOpts, posixlyCorrect⟩

/-- What a call prints before it fails. -/
abbrev Printed := List String

def printUsage (prgname : Word) : String :=
  String.ofList prgname ++
    " [EAL options] --" ++
    " [-C|--config (port,queue,lcore)[,(port,queue,lcore)...]]" ++
    " [-p|--portmask PORTMASK]" ++
    " [-N|--numa-on]" ++
    " [-h|--help]" ++
    "\n"

/-! ## `parse_args` -/

/-- One after the other, up to the first that fails. -/
def untilFailure : List (Parser (Option Printed)) → Parser (Option Printed)
  | [] => return none
  | p :: ps => do
    match ← p with
    | some printed => return some printed
    | none => untilFailure ps

/-- The name is compared up to the end of the label. -/
def longEq (optidx : Nat) (label : Word) : Bool :=
  ((longOpts.map LongOption.name).getD optidx [] ++ ['\x00']).take (label.length + 1) =
    label ++ ['\x00']

section options
variable (prgname : Word)

def setNumaOn : Parser (Option Printed) := do
  modify fun o => { o with numaOn := true }
  return none

def setRxConfig (optarg : Word) : Parser (Option Printed) := do
  let rv ← parseRxConfig optarg
  if rv ≠ 0 then return some ["error: invalid RX config\n", printUsage prgname]
  else return none

def setPortmask (optarg : Word) : Parser (Option Printed) := do
  modify fun o => { o with enabledPortsMask := parsePortmask optarg }
  if parsePortmask optarg = 0 then return some ["error: invalid portmask\n", printUsage prgname]
  else return none

def whenLong (optidx : Nat) (label : Word) (p : Parser (Option Printed)) :
    Parser (Option Printed) := if longEq optidx label then p else return none

/-- One round of the loop. -/
def applyOption : Found → Parser (Option Printed)
  | .short 'C' optarg => setRxConfig prgname (optarg.getD [])
  | .short 'h' _ => return some [printUsage prgname]
  | .short 'n' _ => setNumaOn
  | .short 'p' optarg => setPortmask prgname (optarg.getD [])
  | .long optidx optarg => untilFailure [
      whenLong optidx cmdLineOptNumaOn setNumaOn,
      whenLong optidx cmdLineOptPortmask (setPortmask prgname (optarg.getD [])),
      whenLong optidx cmdLineOptRxConfig (setRxConfig prgname (optarg.getD [])),
      whenLong optidx cmdLineOptHelp (return some [printUsage prgname])]
  | _ => return none

/-- The arguments behind `argv[0]`. `optind` starts at 1, so that what is returned
is how many of them it has used up; an error is the `-1`. -/
def parseArgs (posixlyCorrect : Bool) (argv : List Word) : Parser (Except Printed Nat) := do
  let results := getoptLong (optionTable posixlyCorrect) argv
  match ← untilFailure (results.1.map (applyOption prgname)) with
  | some printed => return .error printed
  | none => return .ok results.2

end options

/-! ## What an option asks for -/

inductive Request where
  | rxConfig (text : Word)
  | portmask (text : Word)
  | numaOn
  | help
  | nothing

def requestOf : Found → Request
  | .short 'C' x => .rxConfig (x.getD [])
  | .short 'h' _ => .help
  | .short 'n' _ => .numaOn
  | .short 'p' x => .portmask (x.getD [])
  | .long 0 _ => .numaOn
  | .long 1 x => .portmask (x.getD [])
  | .long 2 x => .rxConfig (x.getD [])
  | .long 3 _ => .help
  | _ => .nothing

/-- No mapping can be read from the text. -/
def NoMapping (s : List Char) : Prop := ∀ gs rest es, Cut s gs rest → ¬ Accepted 0 gs es

/-- The call fails on it, whatever the variables are. -/
def Request.Refused : Request → Prop
  | .rxConfig text => NoMapping text
  | .portmask text => parsePortmask text = 0
  | .help => True
  | .numaOn | .nothing => False

/-- What is printed then. -/
def Request.printed (prgname : Word) : Request → Printed
  | .rxConfig _ => ["error: invalid RX config\n", printUsage prgname]
  | .portmask _ => ["error: invalid portmask\n", printUsage prgname]
  | .help | .numaOn | .nothing => [printUsage prgname]

/-- The variables after a request that is met. -/
def Options.meet (o : Options) : Request → Options
  | .rxConfig text => o.loaded (entriesBefore text)
  | .portmask text => { o with enabledPortsMask := parsePortmask text }
  | .numaOn => { o with numaOn := true }
  | .help | .nothing => o

/-- A program that does what is asked for. -/
def Does (prgname : Word) (r : Request) (p : Parser (Option Printed)) : Prop :=
  ∀ o, (¬ r.Refused ∧ ∃ stores, p.Returns o stores none (o.meet r)) ∨
    (r.Refused ∧ ∃ stores o', p.Returns o stores (some (r.printed prgname)) o')

section does
variable {prgname : Word}

theorem setRxConfig_does {text : Word} (noNul : '\x00' ∉ text) :
    Does prgname (.rxConfig text) (setRxConfig prgname text) := by
  intro o
  rcases parseRxConfig_returns ⟨text, noNul⟩ o with
    ⟨gs, rest, es, stores, cut, accepted, run⟩ | ⟨refused, stores, o', run⟩
  · left
    obtain same := parseRxConfig_loads run
    rw [same] at run
    exact ⟨fun no => no gs rest es cut accepted, _, run.bind (pure_returns _ _)⟩
  · right
    exact ⟨refused, _, o', run.bind (pure_returns _ _)⟩

theorem setPortmask_does (text : Word) :
    Does prgname (.portmask text) (setPortmask prgname text) := by
  intro o
  unfold setPortmask
  by_cases zero : parsePortmask text = 0
  · right
    rw [if_pos zero]
    exact ⟨zero, _, _, (modify_returns _ o).bind (pure_returns _ _)⟩
  · left
    rw [if_neg zero]
    exact ⟨zero, _, (modify_returns _ o).bind (pure_returns _ _)⟩

theorem setNumaOn_does : Does prgname .numaOn setNumaOn := fun o =>
  .inl ⟨id, _, (modify_returns _ o).bind (pure_returns _ _)⟩

theorem help_does : Does prgname .help (pure (some [printUsage prgname])) := fun o =>
  .inr ⟨trivial, _, o, pure_returns _ o⟩

theorem nothing_does : Does prgname .nothing (pure none) := fun o =>
  .inl ⟨id, _, pure_returns _ o⟩

theorem Does.after {r : Request} {p : Parser (Option Printed)} {ps : List (Parser (Option Printed))}
    (rest : Does prgname r (untilFailure ps)) (first : Does prgname .nothing p) :
    Does prgname r (untilFailure (p :: ps)) := by
  intro o
  obtain ⟨_, stores, goesOn⟩ := (first o).resolve_right fun h => h.1
  rcases rest o with ⟨met, more, run⟩ | ⟨refused, more, o', run⟩
  · exact .inl ⟨met, _, goesOn.bind run⟩
  · exact .inr ⟨refused, _, o', goesOn.bind run⟩

theorem Does.before {r : Request} {p : Parser (Option Printed)}
    {ps : List (Parser (Option Printed))} (first : Does prgname r p)
    (rest : Does prgname .nothing (untilFailure ps)) : Does prgname r (untilFailure (p :: ps)) := by
  intro o
  rcases first o with ⟨met, stores, run⟩ | ⟨refused, stores, o', run⟩
  · obtain ⟨_, more, goesOn⟩ := (rest (o.meet r)).resolve_right fun h => h.1
    exact .inl ⟨met, _, run.bind goesOn⟩
  · exact .inr ⟨refused, _, o', run.bind (pure_returns _ o')⟩

/-- The first of the requests that is refused prints this. -/
def FailsWith (prgname : Word) : List Request → Printed → Prop
  | [], _ => False
  | r :: rs, printed =>
    r.Refused ∧ printed = r.printed prgname ∨ ¬ r.Refused ∧ FailsWith prgname rs printed

theorem FailsWith.refused {rs : List Request} {printed : Printed}
    (h : FailsWith prgname rs printed) : ∃ r ∈ rs, r.Refused := by
  induction rs with
  | nil => exact h.elim
  | cons r rs ih =>
    rcases h with ⟨here, _⟩ | ⟨_, later⟩
    · exact ⟨r, List.mem_cons_self, here⟩
    · obtain ⟨q, hq, refused⟩ := ih later
      exact ⟨q, List.mem_cons_of_mem r hq, refused⟩

theorem FailsWith.unique {rs : List Request} {printed printed' : Printed}
    (h : FailsWith prgname rs printed) (h' : FailsWith prgname rs printed') :
    printed = printed' := by
  induction rs with
  | nil => exact h.elim
  | cons r rs ih =>
    rcases h with ⟨here, rfl⟩ | ⟨met, later⟩
    · rcases h' with ⟨_, rfl⟩ | ⟨met, _⟩
      · rfl
      · exact absurd here met
    · rcases h' with ⟨here, _⟩ | ⟨_, later'⟩
      · exact absurd here met
      · exact ih later later'

theorem untilFailure_returns {rs : List Request} {ps : List (Parser (Option Printed))}
    (does : List.Forall₂ (Does prgname) rs ps) (o : Options) :
    (∀ r ∈ rs, ¬ r.Refused) ∧
        (∃ stores, (untilFailure ps).Returns o stores none (rs.foldl Options.meet o)) ∨
      ∃ printed stores o', FailsWith prgname rs printed ∧
        (untilFailure ps).Returns o stores (some printed) o' := by
  induction does generalizing o with
  | nil => exact .inl ⟨List.forall_mem_nil _, [], pure_returns _ o⟩
  | @cons r p rs ps first _ ih =>
    rcases first o with ⟨met, stores, run⟩ | ⟨refused, stores, o', run⟩
    · rcases ih (o.meet r) with ⟨all, more, rest⟩ | ⟨printed, more, o', fails, rest⟩
      · exact .inl ⟨List.forall_mem_cons.mpr ⟨met, all⟩, _, run.bind rest⟩
      · exact .inr ⟨printed, _, o', .inr ⟨met, fails⟩, run.bind rest⟩
    · exact .inr ⟨_, _, o', .inl ⟨refused, rfl⟩, run.bind (pure_returns _ o')⟩

theorem noNul_argument {x : Option Word} (noNul : ∀ w ∈ x, '\x00' ∉ w) : '\x00' ∉ x.getD [] := by
  cases x with
  | none => exact List.not_mem_nil
  | some w => exact noNul w rfl

/-- The labels are the names of the table: each is the name of one option only. -/
theorem long_does {optidx : Nat} {x : Option Word} (noNul : '\x00' ∉ x.getD []) :
    Does prgname (requestOf (.long optidx x)) (applyOption prgname (.long optidx x)) := by
  have none : Does prgname .nothing (untilFailure []) := nothing_does
  match optidx with
  | 0 =>
    exact Does.before setNumaOn_does <| .after (.after (.after none nothing_does) nothing_does)
      nothing_does
  | 1 =>
    exact .after (.before (setPortmask_does _) (.after (.after none nothing_does) nothing_does))
      nothing_does
  | 2 =>
    exact .after (.after (.before (setRxConfig_does noNul) (.after none nothing_does)) nothing_does)
      nothing_does
  | 3 =>
    exact .after (.after (.after (.before help_does none) nothing_does) nothing_does) nothing_does
  | n + 4 =>
    exact .after (.after (.after (.after none nothing_does) nothing_does) nothing_does) nothing_does

theorem applyOption_does {t : Table} {f : Found} (fits : f.Fits t ('\x00' ∉ ·)) :
    Does prgname (requestOf f) (applyOption prgname f) := by
  cases f with
  | short c x =>
    by_cases config : c = 'C'
    · subst config
      exact setRxConfig_does (noNul_argument fits.2)
    by_cases help : c = 'h'
    · subst help
      exact help_does
    by_cases numaOn : c = 'n'
    · subst numaOn
      exact setNumaOn_does
    by_cases portmask : c = 'p'
    · subst portmask
      exact setPortmask_does _
    · have request : requestOf (.short c x) = .nothing := by
        unfold requestOf
        split <;> simp_all
      have goesOn : applyOption prgname (.short c x) = pure none := by
        unfold applyOption
        split <;> simp_all
      rw [request, goesOn]
      exact nothing_does
  | long i x => exact long_does (noNul_argument fits.2)
  | unknown => exact nothing_does

end does

/-! ## The whole command line -/

def requests (posixlyCorrect : Bool) (argv : List Word) : List Request :=
  (getoptLong (optionTable posixlyCorrect) argv).1.map requestOf

/-- A call returns, and fails on the first request that is refused. -/
theorem parseArgs_returns (prgname : Word) (posixlyCorrect : Bool) (argv : List CString)
    (o : Options) :
    let ws := argv.map CString.chars
    (∀ r ∈ requests posixlyCorrect ws, ¬ r.Refused) ∧
        (∃ stores, (parseArgs prgname posixlyCorrect ws).Returns o stores
          (.ok (getoptLong (optionTable posixlyCorrect) ws).2)
          ((requests posixlyCorrect ws).foldl Options.meet o)) ∨
      ∃ printed stores o', FailsWith prgname (requests posixlyCorrect ws) printed ∧
        (parseArgs prgname posixlyCorrect ws).Returns o stores (.error printed) o' := by
  intro ws
  have noNul : ∀ w ∈ ws, '\x00' ∉ w := by
    intro w hw
    obtain ⟨s, _, rfl⟩ := List.mem_map.mp hw
    exact s.noNul
  have fits : ∀ f ∈ (getoptLong (optionTable posixlyCorrect) ws).1,
      f.Fits (optionTable posixlyCorrect) ('\x00' ∉ ·) :=
    getoptLong_fits (fun suffix clean hx => clean (suffix.subset hx)) noNul
  have does : List.Forall₂ (Does prgname) (requests posixlyCorrect ws)
      ((getoptLong (optionTable posixlyCorrect) ws).1.map (applyOption prgname)) := by
    rw [requests, List.forall₂_map_left_iff, List.forall₂_map_right_iff, List.forall₂_same]
    exact fun f hf => applyOption_does (fits f hf)
  rcases untilFailure_returns does o with ⟨met, stores, run⟩ | ⟨printed, stores, o', fails, run⟩
  · exact .inl ⟨met, _, run.bind (pure_returns _ _)⟩
  · exact .inr ⟨printed, _, o', fails, run.bind (pure_returns _ _)⟩

/-! ## Other spellings -/

/-- A short option and its long name. -/
inductive Spelling : List Word → List Word → Prop
  | config (x : Word) : Spelling ["-C".toList, x] ["--config".toList, x]
  | portmask (x : Word) : Spelling ["-p".toList, x] ["--portmask".toList, x]
  | numa : Spelling ["-N".toList] ["--numa".toList]
  | help : Spelling ["-h".toList] ["--help".toList]

/-- Some options are spelled the long way instead of the short one, or the reverse. -/
def Respells (posixlyCorrect : Bool) : List Word → List Word → Prop :=
  Respelled (optionTable posixlyCorrect) fun x y => Spelling x y ∨ Spelling y x

/-- What `-N` and `--numa` ask for. -/
def Request.Numa : Request → Prop
  | .numaOn | .nothing => True
  | .rxConfig _ | .portmask _ | .help => False

/-- The same request, but for that of `-N` and `--numa`. -/
def Alike (r q : Request) : Prop := r = q ∨ r.Numa ∧ q.Numa

theorem Alike.symm {r q : Request} (h : Alike r q) : Alike q r := h.imp Eq.symm And.symm

theorem Spelling.spells {posixlyCorrect : Bool} {x y : List Word} (h : Spelling x y) :
    x.length = y.length ∧ ∃ f g, Alike (requestOf f) (requestOf g) ∧
      Spells (optionTable posixlyCorrect) x f ∧ Spells (optionTable posixlyCorrect) y g := by
  cases h with
  | config x =>
    exact ⟨rfl, .short 'C' (some x), .long 2 (some x), .inl rfl,
      spells_wanting (p := .short 'C') rfl, spells_wanting (p := .long 2) rfl⟩
  | portmask x =>
    exact ⟨rfl, .short 'p' (some x), .long 1 (some x), .inl rfl,
      spells_wanting (p := .short 'p') rfl, spells_wanting (p := .long 1) rfl⟩
  | numa =>
    exact ⟨rfl, .short 'N' none, .long 0 none, .inr ⟨trivial, trivial⟩, spells_option rfl,
      spells_option rfl⟩
  | help =>
    exact ⟨rfl, .short 'h' none, .long 3 none, .inl rfl, spells_option rfl, spells_option rfl⟩

theorem Spelling.respells {posixlyCorrect : Bool} {x y : List Word} (h : Spelling x y) :
    Respells posixlyCorrect x y := by
  have alone : Respells posixlyCorrect (x ++ []) (y ++ []) :=
    Respelled.replace (Or.inl h) Respelled.nil
  rw [List.append_nil, List.append_nil] at alone
  exact alone

/-- The requests agree one by one, and as many elements are used up. -/
theorem Respells.requests {posixlyCorrect : Bool} {a b : List Word}
    (h : Respells posixlyCorrect a b) :
    List.Forall₂ Alike (requests posixlyCorrect a) (requests posixlyCorrect b) ∧
      (getoptLong (optionTable posixlyCorrect) a).2 =
        (getoptLong (optionTable posixlyCorrect) b).2 := by
  let t := optionTable posixlyCorrect
  have spelled {x y : List Word} (spelling : Spelling x y ∨ Spelling y x) : x.length = y.length ∧
      ∃ f g, Alike (requestOf f) (requestOf g) ∧ Spells t x f ∧ Spells t y g := by
    rcases spelling with forth | back
    · exact forth.spells
    · obtain ⟨size, f, g, like, first, second⟩ := back.spells
      exact ⟨size.symm, g, f, like.symm, second, first⟩
  rw [Udp.requests, Udp.requests, List.forall₂_map_left_iff, List.forall₂_map_right_iff]
  exact Respelled.results (fun _ => .inl rfl) spelled h

section alike
variable {prgname : Word} {rs qs : List Request}

theorem Alike.refused {r q : Request} (h : Alike r q) : (r.Refused ↔ q.Refused) ∧
    (r.Refused → r = q) := by
  rcases h with rfl | ⟨numa, numa'⟩
  · exact ⟨.rfl, fun _ => rfl⟩
  · have met {r : Request} (numa : r.Numa) : ¬ r.Refused := by
      cases r with
      | numaOn => exact id
      | nothing => exact id
      | rxConfig | portmask | help => exact numa.elim
    exact ⟨iff_of_false (met numa) (met numa'), fun refused => absurd refused (met numa)⟩

theorem failsWith_alike (h : List.Forall₂ Alike rs qs) {printed : Printed}
    (fails : FailsWith prgname rs printed) : FailsWith prgname qs printed := by
  induction h with
  | nil => exact fails
  | @cons r q rs qs alike _ ih =>
    rcases fails with ⟨refused, rfl⟩ | ⟨met, later⟩
    · obtain rfl := alike.refused.2 refused
      exact .inl ⟨refused, rfl⟩
    · exact .inr ⟨fun refused => met (alike.refused.1.mpr refused), ih later⟩

/-- All variables but `numa_on`. -/
def Options.withNuma (o : Options) (b : Bool) : Options := { o with numaOn := b }

theorem enters_withNuma (es : List LcoreParams) (o : Options) (b : Bool) :
    es.foldl Options.enter (o.withNuma b) = (es.foldl Options.enter o).withNuma b := by
  induction es generalizing o with
  | nil => rfl
  | cons e es ih => exact ih (o.enter e)

theorem loaded_withNuma (es : List LcoreParams) (o : Options) (b : Bool) :
    (o.withNuma b).loaded es = (o.loaded es).withNuma b :=
  congrArg (fun p : Options => { p with lcoreParams := .array }) (enters_withNuma es o.cleared b)

/-- `numa_on` only counts for requests of its own, and only they set it. -/
theorem meet_withNuma (r : Request) (o : Options) (b : Bool) :
    (o.withNuma b).meet r = (o.meet r).withNuma (b || r matches .numaOn) := by
  cases r with
  | rxConfig text => simp [Options.meet, loaded_withNuma]
  | portmask text => simp [Options.meet, Options.withNuma]
  | numaOn => simp [Options.meet, Options.withNuma]
  | help => simp [Options.meet]
  | nothing => simp [Options.meet]

theorem meets_withNuma (rs : List Request) (o : Options) (b : Bool) :
    rs.foldl Options.meet (o.withNuma b) =
      (rs.foldl Options.meet o).withNuma (b || rs.any (· matches .numaOn)) := by
  induction rs generalizing o b with
  | nil => simp
  | cons r rs ih => rw [List.foldl_cons, meet_withNuma, ih, List.any_cons, Bool.or_assoc]; rfl

theorem meets_numaOn (rs : List Request) (o : Options) :
    (rs.foldl Options.meet o).numaOn = (o.numaOn || rs.any (· matches .numaOn)) :=
  congrArg Options.numaOn (meets_withNuma rs o o.numaOn)

/-- Other variables do not come to differ. -/
theorem meets_alike (h : List.Forall₂ Alike rs qs) {o p : Options}
    (agree : o.withNuma true = p.withNuma true) :
    (rs.foldl Options.meet o).withNuma true = (qs.foldl Options.meet p).withNuma true := by
  induction h generalizing o p with
  | nil => exact agree
  | @cons r q rs qs alike _ ih =>
    have meet (r : Request) (o : Options) :
        (o.meet r).withNuma true = (o.withNuma true).meet r := by
      rw [meet_withNuma, Bool.true_or]
    have idle {r : Request} (numa : r.Numa) (o : Options) :
        (o.withNuma true).meet r = o.withNuma true := by
      cases r with
      | numaOn => rfl
      | nothing => rfl
      | rxConfig | portmask | help => exact numa.elim
    apply ih
    rcases alike with rfl | ⟨numa, numa'⟩
    · rw [meet, meet, agree]
    · rw [meet, meet, idle numa, idle numa', agree]

end alike

/-! ## The same outcome -/

structure SameSettings (o p : Options) : Prop where
  numaOn : o.numaOn = p.numaOn
  enabledPortsMask : o.enabledPortsMask = p.enabledPortsMask
  lcoreParams : o.lcoreParams = p.lcoreParams
  mapping : SameMapping o p

/-- Both calls return the same, and when that is no error leave the same variables. -/
def SameOutcome (o : Options) (p q : Parser (Except Printed Nat)) : Prop :=
  ∃ s t r o₁ o₂, p.Returns o s r o₁ ∧ q.Returns o t r o₂ ∧ ∀ used, r = .ok used → SameSettings o₁ o₂

/-- An option makes the call fail. -/
def Refuses (posixlyCorrect : Bool) (argv : List Word) : Prop :=
  ∃ f ∈ (getoptLong (optionTable posixlyCorrect) argv).1, (requestOf f).Refused

/-- `--numa` is given, in full or shortened. -/
def NumaGiven (posixlyCorrect : Bool) (argv : List Word) : Prop :=
  .long 0 none ∈ (getoptLong (optionTable posixlyCorrect) argv).1

instance (posixlyCorrect : Bool) (argv : List Word) : Decidable (NumaGiven posixlyCorrect argv) :=
  inferInstanceAs (Decidable (_ ∈ _))

theorem request_short {c : Char} {x : Option Word} (h : requestOf (.short c x) = .numaOn) :
    c = 'n' := by
  unfold requestOf at h
  split at h <;> simp_all

/-- There is no short option `n` for the label. -/
theorem requestOf_numaOn {posixlyCorrect : Bool} {f : Found} {arg : Word → Prop}
    (fits : f.Fits (optionTable posixlyCorrect) arg) :
    (requestOf f matches .numaOn) = true ↔ f = .long 0 none := by
  constructor
  · intro asks
    cases f with
    | short c x =>
      have request : requestOf (.short c x) = .numaOn := by
        revert asks
        cases requestOf (.short c x) <;> simp
      obtain rfl := request_short request
      cases fits.1
    | long i x =>
      match i with
      | 0 =>
        cases x with
        | none => rfl
        | some x => cases fits.1
      | 1 | 2 | 3 | n + 4 => cases asks
    | unknown => cases asks
  · rintro rfl
    rfl

theorem any_numaOn (posixlyCorrect : Bool) (argv : List Word) :
    (requests posixlyCorrect argv).any (· matches .numaOn) =
      decide (NumaGiven posixlyCorrect argv) := by
  have fits : ∀ f ∈ (getoptLong (optionTable posixlyCorrect) argv).1,
      f.Fits (optionTable posixlyCorrect) fun _ => True :=
    getoptLong_fits (fun _ _ => trivial) fun _ _ => trivial
  rw [Bool.eq_iff_iff, decide_eq_true_iff, requests, List.any_map, List.any_eq_true]
  constructor
  · rintro ⟨f, hf, asks⟩
    have given := (requestOf_numaOn (fits f hf)).mp asks
    rw [given] at hf
    exact hf
  · intro given
    exact ⟨_, given, rfl⟩

theorem sameSettings_withNuma {o p : Options} (agree : o.withNuma true = p.withNuma true) :
    SameSettings o p ↔ o.numaOn = p.numaOn := by
  constructor
  · exact SameSettings.numaOn
  · intro same
    have equal : o = p := by
      have put := congrArg (fun q : Options => q.withNuma p.numaOn) agree
      have rest : o.withNuma p.numaOn = p := put
      rw [← same] at rest
      exact rest
    subst equal
    exact ⟨rfl, rfl, rfl, rfl, rfl⟩

/-- The spelling is of no account unless `--numa` is there in one of them only, and
would make a difference. -/
theorem sameOutcome_iff {posixlyCorrect : Bool} {a b : List CString}
    (respells : Respells posixlyCorrect (a.map CString.chars) (b.map CString.chars))
    (prgname : Word) (o : Options) :
    SameOutcome o (parseArgs prgname posixlyCorrect (a.map CString.chars))
        (parseArgs prgname posixlyCorrect (b.map CString.chars)) ↔
      Refuses posixlyCorrect (a.map CString.chars) ∨ o.numaOn = true ∨
        (NumaGiven posixlyCorrect (a.map CString.chars) ↔
          NumaGiven posixlyCorrect (b.map CString.chars)) := by
  obtain ⟨alike, used⟩ := respells.requests
  rcases parseArgs_returns prgname posixlyCorrect a o with
    ⟨met, stores, run⟩ | ⟨printed, stores, o₁, fails, run⟩
  · rcases parseArgs_returns prgname posixlyCorrect b o with
      ⟨_, stores', run'⟩ | ⟨_, _, _, fails, _⟩
    · have agree := meets_alike alike (rfl : o.withNuma true = _)
      have accepted : ¬ Refuses posixlyCorrect (a.map CString.chars) := by
        rintro ⟨f, hf, refused⟩
        exact met _ (List.mem_map_of_mem hf) refused
      rw [← used] at run'
      have outcome : SameOutcome o (parseArgs prgname posixlyCorrect (a.map CString.chars))
          (parseArgs prgname posixlyCorrect (b.map CString.chars)) ↔
          SameSettings ((requests posixlyCorrect (a.map CString.chars)).foldl Options.meet o)
            ((requests posixlyCorrect (b.map CString.chars)).foldl Options.meet o) := by
        constructor
        · rintro ⟨_, _, _, _, _, run₁, run₂, same⟩
          obtain ⟨_, rfl, rfl⟩ := run.unique run₁
          obtain ⟨_, _, rfl⟩ := run'.unique run₂
          exact same _ rfl
        · intro same
          exact ⟨_, _, _, _, _, run, run', fun _ _ => same⟩
      rw [outcome, sameSettings_withNuma agree, meets_numaOn, meets_numaOn, any_numaOn, any_numaOn]
      simp only [accepted, false_or]
      cases o.numaOn with
      | true => simp
      | false => simp
    · have back := alike.flip.imp fun _ _ h => Alike.symm h
      obtain ⟨r, hr, refused⟩ := (failsWith_alike back fails).refused
      exact absurd refused (met r hr)
  · have fails' := failsWith_alike alike fails
    rcases parseArgs_returns prgname posixlyCorrect b o with
      ⟨met, _⟩ | ⟨printed', stores', o₂, others, run'⟩
    · obtain ⟨r, hr, refused⟩ := fails'.refused
      exact absurd refused (met r hr)
    · obtain rfl := fails'.unique others
      apply iff_of_true
      · exact ⟨_, _, _, _, _, run, run', fun _ h => nomatch h⟩
      · obtain ⟨r, hr, refused⟩ := fails.refused
        obtain ⟨f, hf, rfl⟩ := List.mem_map.mp hr
        exact .inl ⟨f, hf, refused⟩

def longMask : List CString :=
  [⟨"--portmask".toList, by decide⟩, ⟨"f".toList, by decide⟩]

def shortMask : List CString := [⟨"-p".toList, by decide⟩, ⟨"f".toList, by decide⟩]

theorem mask_sameOutcome : SameOutcome .initial
    (parseArgs "udp_server".toList false (shortMask.map CString.chars))
    (parseArgs "udp_server".toList false (longMask.map CString.chars)) := by
  have respells : Respells false (shortMask.map CString.chars) (longMask.map CString.chars) :=
    (Spelling.portmask "f".toList).respells
  exact (sameOutcome_iff respells _ .initial).mpr (.inr (.inr (by decide)))

def shortNuma : List CString := [⟨"-N".toList, by decide⟩]

def longNuma : List CString := [⟨"--numa".toList, by decide⟩]

/-- The short option does nothing. -/
theorem numa_differs : Respells false (shortNuma.map CString.chars) (longNuma.map CString.chars) ∧
    ¬ SameOutcome .initial (parseArgs "udp_server".toList false (shortNuma.map CString.chars))
      (parseArgs "udp_server".toList false (longNuma.map CString.chars)) := by
  refine ⟨Spelling.numa.respells, ?_⟩
  have short : requests false (shortNuma.map CString.chars) = [.nothing] := rfl
  have long : requests false (longNuma.map CString.chars) = [.numaOn] := rfl
  rintro ⟨_, _, _, _, _, run₁, run₂, same⟩
  rcases parseArgs_returns "udp_server".toList false shortNuma .initial with
    ⟨_, _, run⟩ | ⟨_, _, _, fails, _⟩
  · rcases parseArgs_returns "udp_server".toList false longNuma .initial with
      ⟨_, _, run'⟩ | ⟨_, _, _, fails, _⟩
    · obtain ⟨_, rfl, rfl⟩ := run.unique run₁
      obtain ⟨_, _, rfl⟩ := run'.unique run₂
      have numaOn := (same _ rfl).numaOn
      rw [short, long] at numaOn
      cases numaOn
    · rw [long] at fails
      exact (fails.resolve_left And.left).2
  · rw [short] at fails
    exact (fails.resolve_left And.left).2

end Udp
