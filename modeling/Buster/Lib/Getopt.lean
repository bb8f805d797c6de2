import Mathlib.Data.List.Forall2
import Buster.Lib.CString

/-!
# `getopt_long`

What successive calls of the C library's `getopt_long` return for an argument
vector, up to the end. All long options have a null `flag` and a `val` of 0.
-/

namespace Getopt

/-- An element of the argument vector. -/
abbrev Word := List Char

structure LongOption where
  name : Word
  hasArg : Bool

/-- The arguments of the call that say which options there are. `optstring` has
letters only, each with at most one colon behind it. -/
structure Table where
  optstring : List Char
  longopts : List LongOption
  /-- The variable `POSIXLY_CORRECT` is set. -/
  posixlyCorrect : Bool

/-- The result of a call, with `optarg` and, for a long option, `longindex`. -/
inductive Found where
  | short (c : Char) (optarg : Option Word)
  | long (longindex : Nat) (optarg : Option Word)
  /-- A `'?'`. -/
  | unknown
  deriving DecidableEq

/-- An option that still wants its argument. -/
inductive Wanting where
  | short (c : Char)
  | long (longindex : Nat)
  deriving DecidableEq

def Wanting.given : Wanting → Word → Found
  | .short c, x => .short c (some x)
  | .long i, x => .long i (some x)

/-- What an element of the vector is. -/
inductive Reading where
  | nonOption
  /-- `--` -/
  | last
  | options (found : List Found) (wanting : Option Wanting)
  deriving DecidableEq

variable (t : Table)

/-- Whether there is a short option of that letter, and whether it takes an argument. -/
def shortOption (c : Char) : Option Bool :=
  if c = ':' then none
  else
    match CString.strchr t.optstring c with
    | none => none
    | some rest => some (rest.tail.head? = some ':')

/-- Letters in one element. An argument is what is left behind its option. -/
def readCluster : List Char → List Found × Option Wanting
  | [] => ([], none)
  | c :: cs =>
    match shortOption t c with
    | none => (.unknown :: (readCluster cs).1, (readCluster cs).2)
    | some false => (.short c none :: (readCluster cs).1, (readCluster cs).2)
    | some true => if cs = [] then ([], some (.short c)) else ([.short c (some cs)], none)

/-- The option of that name, or else the first that the name begins, unless another
that it begins differs in taking an argument. -/
def longIndex (name : Word) : Option Nat :=
  match t.longopts.findIdx? fun o => o.name = name with
  | some i => some i
  | none =>
    match t.longopts.zipIdx.filter fun o => name.isPrefixOf o.1.name with
    | [] => none
    | o :: os => if os.all fun p => p.1.hasArg = o.1.hasArg then some o.2 else none

/-- What stands behind the two dashes. -/
def readLong (text : List Char) : List Found × Option Wanting :=
  match longIndex t (text.takeWhile (· ≠ '=')) with
  | none => ([.unknown], none)
  | some i =>
    match (t.longopts.map LongOption.hasArg).getD i false, text.dropWhile (· ≠ '=') with
    | true, _ :: value => ([.long i (some value)], none)
    | true, [] => ([], some (.long i))
    | false, _ :: _ => ([.unknown], none)
    | false, [] => ([.long i none], none)

def readWord : Word → Reading
  | ['-', '-'] => .last
  | '-' :: '-' :: c :: cs => .options (readLong t (c :: cs)).1 (readLong t (c :: cs)).2
  | '-' :: c :: cs => .options (readCluster t (c :: cs)).1 (readCluster t (c :: cs)).2
  | _ => .nonOption

/-- The results of all calls, and how many elements they have used up: what is no
option is passed over, or is the end. -/
def getoptLong : List Word → List Found × Nat
  | [] => ([], 0)
  | w :: ws =>
    match readWord t w with
    | .nonOption => if t.posixlyCorrect then ([], 0) else getoptLong ws
    | .last => ([], 1)
    | .options found none => (found ++ (getoptLong ws).1, (getoptLong ws).2 + 1)
    | .options found (some p) =>
      match ws with
      | [] => (found ++ [.unknown], 1)
      | x :: xs => (found ++ p.given x :: (getoptLong xs).1, (getoptLong xs).2 + 2)

/-! ## What is found -/

/-- An option there is, with an argument if it takes one, of which `arg` holds. -/
def Found.Fits (arg : Word → Prop) : Found → Prop
  | .short c x => shortOption t c = some x.isSome ∧ ∀ w ∈ x, arg w
  | .long i x => (t.longopts.map LongOption.hasArg).getD i false = x.isSome ∧ ∀ w ∈ x, arg w
  | .unknown => True

/-- Options, and one that fits with any argument. -/
def AllFit (arg : Word → Prop) (found : List Found) (wanting : Option Wanting) : Prop :=
  (∀ f ∈ found, f.Fits t arg) ∧ ∀ p ∈ wanting, ∀ x, arg x → (p.given x).Fits t arg

section fits
variable {t} {arg : Word → Prop}

theorem AllFit.cons {f : Found} {found : List Found} {wanting : Option Wanting}
    (first : f.Fits t arg) (rest : AllFit t arg found wanting) :
    AllFit t arg (f :: found) wanting := by
  refine ⟨?_, rest.2⟩
  intro g hg
  rcases List.mem_cons.mp hg with rfl | later
  · exact first
  · exact rest.1 g later

theorem allFit_nil : AllFit t arg [] none := by
  constructor
  · intro f hf
    cases hf
  · intro p hp
    cases hp

theorem allFit_wanting {p : Wanting} (fits : ∀ x, arg x → (p.given x).Fits t arg) :
    AllFit t arg [] (some p) := by
  constructor
  · intro f hf
    cases hf
  · intro q hq
    obtain rfl := Option.mem_some.mp hq
    exact fits

variable (suffix : ∀ {v w : Word}, v <:+ w → arg w → arg v)
include suffix

theorem readCluster_fits {cs : List Char} (h : arg cs) :
    AllFit t arg (readCluster t cs).1 (readCluster t cs).2 := by
  induction cs with
  | nil => exact allFit_nil
  | cons c cs ih =>
    have rest : arg cs := suffix (List.suffix_cons c cs) h
    rw [readCluster]
    split
    · exact (ih rest).cons trivial
    · rename_i takes
      refine (ih rest).cons ⟨takes, ?_⟩
      intro w hw
      cases hw
    · rename_i takes
      split
      · apply allFit_wanting
        intro x hx
        exact ⟨takes, fun w hw => Option.mem_some.mp hw ▸ hx⟩
      · exact allFit_nil.cons ⟨takes, fun w hw => Option.mem_some.mp hw ▸ rest⟩

theorem readLong_fits {text : List Char} (h : arg text) :
    AllFit t arg (readLong t text).1 (readLong t text).2 := by
  unfold readLong
  split
  · exact allFit_nil.cons trivial
  · rename_i i _
    split
    · rename_i takes behind
      have value := suffix ((List.suffix_cons _ _).trans (behind ▸ List.dropWhile_suffix _)) h
      exact allFit_nil.cons ⟨takes, fun w hw => Option.mem_some.mp hw ▸ value⟩
    · rename_i takes _
      apply allFit_wanting
      intro x hx
      exact ⟨takes, fun w hw => Option.mem_some.mp hw ▸ hx⟩
    · exact allFit_nil.cons trivial
    · rename_i takes _
      refine allFit_nil.cons ⟨takes, ?_⟩
      intro w hw
      cases hw

theorem readWord_fits {w : Word} {found : List Found} {wanting : Option Wanting} (h : arg w)
    (read : readWord t w = .options found wanting) : AllFit t arg found wanting := by
  unfold readWord at read
  split at read
  · cases read
  · cases read
    exact readLong_fits suffix (suffix ((List.suffix_cons _ _).trans (List.suffix_cons _ _)) h)
  · cases read
    exact readCluster_fits suffix (suffix (List.suffix_cons _ _) h)
  · cases read

/-- Every result is an option of the table or `'?'`, and its argument an element of
the vector or the end of one. -/
theorem getoptLong_fits {ws : List Word} (all : ∀ w ∈ ws, arg w) :
    ∀ f ∈ (getoptLong t ws).1, f.Fits t arg := by
  induction ws using getoptLong.induct t with
  | case1 =>
    intro f hf
    cases hf
  | case2 w ws read posix =>
    intro f hf
    simp [getoptLong, read, posix] at hf
  | case3 w ws read posix ih =>
    rw [List.forall_mem_cons] at all
    simp only [getoptLong, read, posix]
    exact ih all.2
  | case4 w ws read =>
    intro f hf
    simp [getoptLong, read] at hf
  | case5 w ws found read ih =>
    rw [List.forall_mem_cons] at all
    intro f hf
    simp only [getoptLong, read, List.mem_append] at hf
    rcases hf with here | later
    · exact (readWord_fits suffix all.1 read).1 f here
    · exact ih all.2 f later
  | case6 w found p read =>
    intro f hf
    simp only [getoptLong, read, List.mem_append, List.mem_singleton] at hf
    rcases hf with here | rfl
    · exact (readWord_fits suffix (all w (by simp)) read).1 f here
    · trivial
  | case7 w found p read x xs ih =>
    simp only [List.forall_mem_cons] at all
    have fits := readWord_fits suffix all.1 read
    intro f hf
    simp only [getoptLong, read, List.mem_append, List.mem_cons] at hf
    rcases hf with here | rfl | later
    · exact fits.1 f here
    · exact fits.2 p rfl x all.2.1
    · exact ih all.2.2 f later

end fits

/-! ## Other words for the same options -/

/-- The element wants the next one for its argument. -/
def wantsNext (w : Word) : Bool :=
  match readWord t w with
  | .options _ (some _) => true
  | _ => false

/-- These elements are that option, whatever follows. -/
def Spells (x : List Word) (f : Found) : Prop :=
  ∀ ws, getoptLong t (x ++ ws) = (f :: (getoptLong t ws).1, (getoptLong t ws).2 + x.length)

/-- Some options of the vector are spelled in another way. -/
inductive Respelled (spelling : List Word → List Word → Prop) : List Word → List Word → Prop
  | nil : Respelled spelling [] []
  | replace {x y ws vs} : spelling x y → Respelled spelling ws vs →
      Respelled spelling (x ++ ws) (y ++ vs)
  | keep {w ws vs} : wantsNext t w = false → Respelled spelling ws vs →
      Respelled spelling (w :: ws) (w :: vs)
  | keepBoth {w x ws vs} : wantsNext t w = true → Respelled spelling ws vs →
      Respelled spelling (w :: x :: ws) (w :: x :: vs)
  | keepLast {w} : Respelled spelling [w] [w]

section respelled
variable {t}

theorem spells_option {w : Word} {f : Found} (read : readWord t w = .options [f] none) :
    Spells t [w] f := by
  intro ws
  simp [getoptLong, read]

theorem spells_wanting {w x : Word} {p : Wanting} (read : readWord t w = .options [] (some p)) :
    Spells t [w, x] (p.given x) := by
  intro ws
  simp [getoptLong, read]

/-- The results agree one by one, and as many elements are used up. -/
theorem Respelled.results {spelling : List Word → List Word → Prop} {alike : Found → Found → Prop}
    (same : ∀ f, alike f f) (spelled : ∀ {x y}, spelling x y → x.length = y.length ∧
      ∃ f g, alike f g ∧ Spells t x f ∧ Spells t y g) {a b : List Word}
    (h : Respelled t spelling a b) : List.Forall₂ alike (getoptLong t a).1 (getoptLong t b).1 ∧
      (getoptLong t a).2 = (getoptLong t b).2 := by
  have reflexive (fs : List Found) : List.Forall₂ alike fs fs :=
    List.forall₂_same.mpr fun f _ => same f
  induction h with
  | nil => exact ⟨.nil, rfl⟩
  | replace respell _ ih =>
    obtain ⟨size, f, g, like, first, second⟩ := spelled respell
    rw [first, second, size, ih.2]
    exact ⟨.cons like ih.1, rfl⟩
  | @keep w ws vs plain _ ih =>
    cases read : readWord t w with
    | nonOption =>
      simp only [getoptLong, read]
      split
      · exact ⟨.nil, rfl⟩
      · exact ih
    | last =>
      simp only [getoptLong, read]
      exact ⟨.nil, trivial⟩
    | options found wanting =>
      cases wanting with
      | none =>
        simp only [getoptLong, read, ih.2]
        exact ⟨List.rel_append (reflexive found) ih.1, trivial⟩
      | some p => simp [wantsNext, read] at plain
  | @keepBoth w x ws vs wants _ ih =>
    cases read : readWord t w with
    | nonOption => simp [wantsNext, read] at wants
    | last => simp [wantsNext, read] at wants
    | options found wanting =>
      cases wanting with
      | none => simp [wantsNext, read] at wants
      | some p =>
        simp only [getoptLong, read, ih.2]
        exact ⟨List.rel_append (reflexive found) (.cons (same _) ih.1), trivial⟩
  | keepLast => exact ⟨reflexive _, rfl⟩

end respelled

end Getopt
