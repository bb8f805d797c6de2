import Buster.Udp.Config

/-!
# What `parse_rx_config` accepts

The usage message gives the grammar of a mapping, `Mapping`. Every mapping that
is printed in it is read back (`parseRxConfig_showConfig`), and
`accepts_only_mapping_iff` says which texts outside it are accepted as well.
-/

namespace Udp

open Imp Imp.Prog CString

/-- A number as `strtoul` with base 0 reads it, with nothing left over. -/
structure IsNumber (f : List Char) : Prop where
  complete : (strtoul f 0).endptr = f.length
  some : f ≠ []
  fits : (strtoul f 0).erange = false
  small : (strtoul f 0).value ≤ 255

/-- `port,queue,lcore` -/
def Triple (g : List Char) : Prop :=
  ∃ port queue lcore, g = port ++ ',' :: (queue ++ ',' :: lcore) ∧
    IsNumber port ∧ IsNumber queue ∧ IsNumber lcore

/-- `(port,queue,lcore)[,(port,queue,lcore)...]` -/
inductive Mapping : List Char → Prop
  | one {g} : Triple g → Mapping ('(' :: (g ++ [')']))
  | more {g s} : Triple g → Mapping s → Mapping ('(' :: (g ++ ')' :: ',' :: s))

/-- What sets a text in the grammar apart from one that is accepted only. -/
structure Tidy (gs : List (List Char × List Char)) (rest : List Char) : Prop where
  some : gs ≠ []
  /-- Nothing stands before the first group, -/
  before : ∀ x ∈ gs.head?, x.1 = []
  /-- one comma between two groups, -/
  between : ∀ x ∈ gs.tail, x.1 = [',']
  /-- nothing behind the last one, -/
  behind : rest = []
  /-- nothing behind the number of a field; and where a group is so long that its
  `unsigned` length is another one, it is well formed beyond what was copied. -/
  ends : ∀ x ∈ gs, x.2.length < 2 ^ 32 → ∀ f ∈ fields ',' numFld x.2,
    (strtoul f 0).endptr = f.length
  long : ∀ x ∈ gs, 2 ^ 32 ≤ x.2.length → Triple x.2

/-! ## Numbers and groups -/

theorem readField_eq_some {f : List Char} {v : U64} : readField f = some v ↔
    (strtoul f 0).erange = false ∧ (strtoul f 0).endptr ≠ 0 ∧ (strtoul f 0).value ≤ 255 ∧
      v = (strtoul f 0).value := by
  unfold readField
  dsimp only
  constructor
  · intro read
    split at read
    · cases read
    · rename_i good
      simp only [not_or, Bool.not_eq_true, BitVec.not_lt, gt_iff_lt] at good
      exact ⟨good.1, good.2.1, good.2.2, (Option.some.inj read).symm⟩
  · rintro ⟨fits, some, small, rfl⟩
    rw [if_neg]
    rintro (large | none | big)
    · rw [fits] at large
      cases large
    · exact some none
    · exact BitVec.not_lt.mpr small big

theorem isNumber_iff {f : List Char} :
    IsNumber f ↔ (∃ v, readField f = some v) ∧ (strtoul f 0).endptr = f.length := by
  constructor
  · intro h
    have read : (strtoul f 0).endptr ≠ 0 := by
      rw [h.complete]
      exact fun none => h.some (List.eq_nil_of_length_eq_zero none)
    exact ⟨⟨_, readField_eq_some.mpr ⟨h.fits, read, h.small, rfl⟩⟩, h.complete⟩
  · rintro ⟨⟨v, read⟩, complete⟩
    obtain ⟨fits, some, small, _⟩ := readField_eq_some.mp read
    refine ⟨complete, ?_, fits, small⟩
    rintro rfl
    exact some complete

theorem IsNumber.numeric {f : List Char} (h : IsNumber f) : ∀ c ∈ f, Numeric c := by
  have all := take_endptr_numeric (by decide : 0 ≤ 36) f
  rwa [h.complete, List.take_length] at all

theorem IsNumber.notMem {f : List Char} (h : IsNumber f) {c : Char} (other : ¬ Numeric c) :
    c ∉ f := fun found => other (h.numeric c found)

theorem Triple.chars {g : List Char} (h : Triple g) : ∀ c ∈ g, Numeric c ∨ c = ',' := by
  obtain ⟨port, queue, lcore, rfl, p, q, l⟩ := h
  intro c found
  simp only [List.mem_append, List.mem_cons] at found
  rcases found with found | rfl | found | rfl | found
  · exact .inl (p.numeric c found)
  · exact .inr rfl
  · exact .inl (q.numeric c found)
  · exact .inr rfl
  · exact .inl (l.numeric c found)

theorem Triple.notMem {g : List Char} (h : Triple g) {c : Char} (other : ¬ (Numeric c ∨ c = ',')) :
    c ∉ g := fun found => other (h.chars c found)

theorem Triple.noClose {g : List Char} (h : Triple g) : ')' ∉ g := h.notMem (by decide)

theorem IsNumber.fields_last {f : List Char} (h : IsNumber f) : fields ',' 1 f = [f] :=
  fields_uncut (h.notMem (by decide)) h.some 0

/-- Three fields that are not empty stand between the first two commas. -/
theorem fields_three {g a b c : List Char} (cut : fields ',' 3 g = [a, b, c]) (some : c ≠ []) :
    g = a ++ ',' :: (b ++ ',' :: c) := by
  by_cases first : ',' ∈ g
  · obtain ⟨a', g₁, rfl, noComma⟩ := List.eq_append_cons_of_mem first
    rw [fields_cut noComma] at cut
    obtain ⟨rfl, cut₁⟩ := List.cons.inj cut
    by_cases second : ',' ∈ g₁
    · obtain ⟨b', g₂, rfl, noComma'⟩ := List.eq_append_cons_of_mem second
      rw [fields_cut noComma'] at cut₁
      obtain ⟨rfl, cut₂⟩ := List.cons.inj cut₁
      cases g₂ with
      | nil => cases cut₂
      | cons x xs =>
        rw [Nat.zero_add, fields] at cut₂
        split at cut₂
        · exact absurd (List.cons.inj cut₂).1.symm some
        · rw [(List.cons.inj cut₂).1]
    · exfalso
      by_cases empty : g₁ = []
      · rw [empty, fields_nil] at cut₁
        cases cut₁
      · rw [fields_uncut second empty] at cut₁
        cases cut₁
  · exfalso
    by_cases empty : g = []
    · rw [empty, fields_nil] at cut
      cases cut
    · rw [fields_uncut first empty] at cut
      cases cut

theorem triple_iff {g : List Char} : Triple g ↔
    ∃ a b c, fields ',' numFld g = [a, b, c] ∧ IsNumber a ∧ IsNumber b ∧ IsNumber c := by
  constructor
  · rintro ⟨a, b, c, rfl, p, q, l⟩
    refine ⟨a, b, c, ?_, p, q, l⟩
    rw [numFld, fields_cut (p.notMem (by decide)), fields_cut (q.notMem (by decide)),
      l.fields_last]
  · rintro ⟨a, b, c, cut, p, q, l⟩
    exact ⟨a, b, c, fields_three cut l.some, p, q, l⟩

theorem forall₂_of_mapM {α β : Type} {f : α → Option β} {as : List α} {bs : List β}
    (h : as.mapM f = some bs) : List.Forall₂ (fun a b => f a = some b) as bs := by
  induction as generalizing bs with
  | nil =>
    obtain rfl : bs = [] := by simpa using h.symm
    exact .nil
  | cons a as ih =>
    rw [List.mapM_cons] at h
    cases first : f a with
    | none => simp [first] at h
    | some b =>
      cases later : as.mapM f with
      | none => simp [first, later] at h
      | some bs' =>
        obtain rfl : bs = b :: bs' := by simpa [first, later] using h.symm
        exact .cons first (ih later)

/-- A group that gives an entry has three fields, each of which begins with a number. -/
theorem entryOf_fields {g : List Char} {e : LcoreParams} (read : entryOf g = some e)
    (short : g.length < 2 ^ 32) : ∃ a b c, fields ',' numFld g = [a, b, c] ∧
      ∀ f ∈ [a, b, c], ∃ v, readField f = some v := by
  have whole : copied g = g := by
    rw [copied, Nat.mod_eq_of_lt short, List.take_length]
  unfold entryOf at read
  split at read
  · cases read
  rw [whole] at read
  unfold readGroup at read
  split at read
  · rename_i port queue lcore numbers
    generalize fields ',' numFld g = texts at numbers
    cases forall₂_of_mapM numbers with
    | cons p tail =>
      cases tail with
      | cons q tail =>
        cases tail with
        | cons l tail =>
          cases tail
          refine ⟨_, _, _, rfl, ?_⟩
          simp only [List.forall_mem_cons]
          exact ⟨⟨_, p⟩, ⟨_, q⟩, ⟨_, l⟩, List.forall_mem_nil _⟩
  · cases read

theorem triple_of_ends {g : List Char} {e : LcoreParams} (read : entryOf g = some e)
    (short : g.length < 2 ^ 32)
    (ends : ∀ f ∈ fields ',' numFld g, (strtoul f 0).endptr = f.length) : Triple g := by
  obtain ⟨a, b, c, cut, numbers⟩ := entryOf_fields read short
  rw [cut] at ends
  have number : ∀ f ∈ [a, b, c], IsNumber f := fun f hf =>
    isNumber_iff.mpr ⟨numbers f hf, ends f hf⟩
  simp only [List.forall_mem_cons] at number
  exact triple_iff.mpr ⟨a, b, c, cut, number.1, number.2.1, number.2.2.1⟩

theorem Triple.ends {g : List Char} (h : Triple g) :
    ∀ f ∈ fields ',' numFld g, (strtoul f 0).endptr = f.length := by
  obtain ⟨a, b, c, cut, p, q, l⟩ := triple_iff.mp h
  rw [cut]
  simp only [List.forall_mem_cons]
  exact ⟨p.complete, q.complete, l.complete, List.forall_mem_nil _⟩

/-! ## The grammar and the groups -/

theorem Accepted.entry {n : Nat} {gs : List (List Char × List Char)} {es : List LcoreParams}
    (h : Accepted n gs es) {x : List Char × List Char} (hx : x ∈ gs) :
    ∃ e, entryOf x.2 = some e := by
  have reads := forall₂_of_mapM h.1
  clear h
  induction reads with
  | nil => cases hx
  | cons first _ ih =>
    cases hx with
    | head => exact ⟨_, first⟩
    | tail _ later => exact ih later

/-- A mapping comes apart into its groups, whatever gap it stands behind. -/
theorem Mapping.cut {s : List Char} (h : Mapping s) {gap : List Char} (noOpen : '(' ∉ gap) :
    ∃ g gs, Cut (gap ++ s) ((gap, g) :: gs) [] ∧ (∀ x ∈ gs, x.1 = [',']) ∧
      ∀ x ∈ (gap, g) :: gs, Triple x.2 := by
  induction h generalizing gap with
  | @one g triple =>
    have last : Cut [] [] [] := .last (List.not_mem_nil)
    exact ⟨g, [], .group noOpen triple.noClose last, List.forall_mem_nil _,
      List.forall_mem_singleton.mpr triple⟩
  | @more g s triple _ ih =>
    have comma : '(' ∉ [','] := by decide
    obtain ⟨g', gs, cut, commas, triples⟩ := ih comma
    refine ⟨g, ([','], g') :: gs, .group noOpen triple.noClose cut, ?_, ?_⟩
    · exact List.forall_mem_cons.mpr ⟨rfl, commas⟩
    · exact List.forall_mem_cons.mpr ⟨triple, triples⟩

theorem Cut.mapping {s gap g : List Char} {gs : List (List Char × List Char)}
    (h : Cut s ((gap, g) :: gs) []) (commas : ∀ x ∈ gs, x.1 = [','])
    (triples : ∀ x ∈ (gap, g) :: gs, Triple x.2) : ∃ t, s = gap ++ t ∧ Mapping t := by
  generalize all : (gap, g) :: gs = groups at h
  generalize none : ([] : List Char) = rest at h
  induction h generalizing gap g gs with
  | last => cases all
  | @group gap' g' t groups rest _ _ later ih =>
    obtain ⟨same, rfl⟩ := List.cons.inj all
    cases same
    subst none
    obtain ⟨triple, triples⟩ := List.forall_mem_cons.mp triples
    refine ⟨_, rfl, ?_⟩
    cases gs with
    | nil =>
      cases later
      exact .one triple
    | cons x gs =>
      obtain ⟨gap₁, g₁⟩ := x
      obtain ⟨comma, commas⟩ := List.forall_mem_cons.mp commas
      obtain ⟨u, rfl, mapping⟩ := ih commas triples rfl rfl
      dsimp only at comma
      rw [comma]
      exact .more triple mapping

theorem mapping_iff_tidy {s : List Char} {gs : List (List Char × List Char)} {rest : List Char}
    {es : List LcoreParams} (cut : Cut s gs rest) (accepted : Accepted 0 gs es) :
    Mapping s ↔ Tidy gs rest := by
  constructor
  · intro h
    have nothing : '(' ∉ ([] : List Char) := List.not_mem_nil
    obtain ⟨g, gs', cut', commas, triples⟩ := h.cut nothing
    obtain ⟨rfl, rfl⟩ := cut.unique cut'
    constructor
    · exact List.cons_ne_nil _ _
    · simp
    · exact commas
    · rfl
    · exact fun x hx _ => (triples x hx).ends
    · exact fun x hx _ => triples x hx
  · intro tidy
    have triples : ∀ x ∈ gs, Triple x.2 := by
      intro x hx
      by_cases short : x.2.length < 2 ^ 32
      · obtain ⟨e, read⟩ := accepted.entry hx
        exact triple_of_ends read short (tidy.ends x hx short)
      · exact tidy.long x hx (Nat.le_of_not_lt short)
    cases gs with
    | nil => exact absurd rfl tidy.some
    | cons x gs =>
      obtain ⟨gap, g⟩ := x
      obtain rfl : gap = [] := tidy.before (gap, g) rfl
      obtain rfl := tidy.behind
      obtain ⟨t, rfl, mapping⟩ := cut.mapping tidy.between triples
      exact mapping

/-- Only mappings are accepted, except for texts that are turned away by none of
the checks and are not tidy. -/
theorem accepts_only_mapping_iff (s : CString) :
    (∀ o stores o', (parseRxConfig s.chars).Returns o stores 0 o' → Mapping s.chars) ↔
      ∀ gs rest es, Cut s.chars gs rest → Accepted 0 gs es → Tidy gs rest := by
  constructor
  · intro only gs rest es cut accepted
    rcases parseRxConfig_returns s .initial with ⟨_, _, _, stores, _, _, run⟩ | ⟨refused, _⟩
    · exact (mapping_iff_tidy cut accepted).mp (only _ stores _ run)
    · exact absurd accepted (refused gs rest es cut)
  · intro tidy o stores o' run
    rcases parseRxConfig_returns s o with ⟨gs, rest, es, _, cut, accepted, _⟩ | ⟨_, _, _, failed⟩
    · exact (mapping_iff_tidy cut accepted).mpr (tidy gs rest es cut accepted)
    · cases (run.unique failed).2.1

/-- A mapping without its parentheses is accepted, as one of no entries. -/
theorem bare_accepted : (parseRxConfig "0,0,1".toList).Returns .initial [] 0
    { Options.initial with lcoreParams := .array, nLcoreParams := 0 } ∧
      ¬ Mapping "0,0,1".toList := by
  constructor
  · have stops : parseRound "0,0,1".toList = pure (.inr true) := parseRound_end (by decide)
    exact parseRxConfig_parsed (parseLoop_stops stops)
  · intro mapping
    generalize text : "0,0,1".toList = s at mapping
    cases mapping with
    | one => cases text
    | more => cases text

/-! ## Printing -/

def decimal (x : U8) : List Char := Nat.toDigits 10 x.toNat

def showParams (p : LcoreParams) : List Char :=
  decimal p.portId ++ ',' :: (decimal p.queueId ++ ',' :: decimal p.lcoreId)

def showGroup (p : LcoreParams) : List Char := '(' :: (showParams p ++ [')'])

/-- `(port,queue,lcore),(port,queue,lcore),...` in plain decimal. -/
def showConfig (ps : List LcoreParams) : List Char := [','].intercalate (ps.map showGroup)

theorem strtoul_decimal (x : U8) :
    strtoul (decimal x) 0 = ⟨x.setWidth 64, (decimal x).length, false⟩ := by
  have small := x.isLt
  rw [decimal, strtoul_toDigits (by omega), BitVec.ofNat_toNat]

theorem isNumber_decimal (x : U8) : IsNumber (decimal x) := by
  have read := strtoul_decimal x
  constructor
  · rw [read]
  · exact Nat.toDigits_ne_nil
  · rw [read]
  · rw [read]
    bv_omega

theorem readField_decimal (x : U8) : readField (decimal x) = some (x.setWidth 64) := by
  obtain ⟨v, read⟩ := (isNumber_iff.mp (isNumber_decimal x)).1
  rw [read, (readField_eq_some.mp read).2.2.2, strtoul_decimal]

theorem length_decimal (x : U8) : (decimal x).length ≤ 3 := by
  have small := x.isLt
  exact (Nat.length_toDigits_le_iff (by decide) (by decide)).mpr (by omega)

theorem triple_showParams (p : LcoreParams) : Triple (showParams p) :=
  ⟨_, _, _, rfl, isNumber_decimal _, isNumber_decimal _, isNumber_decimal _⟩

theorem entryOf_showParams (p : LcoreParams) : entryOf (showParams p) = some p := by
  have h₁ := length_decimal p.portId
  have h₂ := length_decimal p.queueId
  have h₃ := length_decimal p.lcoreId
  have short : (showParams p).length ≤ 11 := by
    simp only [showParams, List.length_append, List.length_cons]
    omega
  have size : (showParams p).length % 2 ^ 32 = (showParams p).length :=
    Nat.mod_eq_of_lt (by omega)
  have cut : fields ',' numFld (showParams p) =
      [decimal p.portId, decimal p.queueId, decimal p.lcoreId] := by
    have noComma (x : U8) : ',' ∉ decimal x := (isNumber_decimal x).notMem (by decide)
    rw [numFld, showParams, fields_cut (noComma _), fields_cut (noComma _),
      (isNumber_decimal _).fields_last]
  unfold entryOf readGroup copied
  rw [size, if_neg (by omega), List.take_length, cut]
  simp [readField_decimal]

theorem cut_showConfig (p : LcoreParams) (ps : List LcoreParams) {gap : List Char}
    (noOpen : '(' ∉ gap) : Cut (gap ++ showConfig (p :: ps))
      ((gap, showParams p) :: ps.map fun q => ([','], showParams q)) [] := by
  induction ps generalizing p gap with
  | nil =>
    have last : Cut [] [] [] := .last List.not_mem_nil
    have one : showConfig [p] = '(' :: (showParams p ++ ')' :: []) := by
      simp [showConfig, showGroup]
    rw [one]
    exact .group noOpen (triple_showParams p).noClose last
  | cons q ps ih =>
    have comma : '(' ∉ [','] := by decide
    have split : showConfig (p :: q :: ps) =
        '(' :: (showParams p ++ ')' :: ([','] ++ showConfig (q :: ps))) := by
      simp [showConfig, showGroup]
    rw [split]
    exact .group noOpen (triple_showParams p).noClose (ih q comma)

theorem noNul_showConfig (ps : List LcoreParams) : '\x00' ∉ showConfig ps := by
  have group (p : LcoreParams) : '\x00' ∉ showGroup p := by
    have inner : '\x00' ∉ showParams p := (triple_showParams p).notMem (by decide)
    simp [showGroup, inner]
  cases ps with
  | nil => exact List.not_mem_nil
  | cons p ps =>
    induction ps generalizing p with
    | nil => simpa [showConfig] using group p
    | cons q ps ih => simpa [showConfig, group p] using ih q

/-- The groups of a printed mapping give the entries it was printed from. -/
theorem showConfig_groups (ps : List LcoreParams) : ∃ gs, Cut (showConfig ps) gs [] ∧
    gs.length = ps.length ∧ gs.mapM (fun x => entryOf x.2) = some ps := by
  have entries (qs : List LcoreParams) :
      (qs.map fun q => ([','], showParams q)).mapM (fun x => entryOf x.2) = some qs := by
    rw [List.mapM_map]
    induction qs with
    | nil => rfl
    | cons q qs ih => simp [entryOf_showParams, ih]
  cases ps with
  | nil => exact ⟨[], .last List.not_mem_nil, rfl, rfl⟩
  | cons p ps =>
    have nothing : '(' ∉ ([] : List Char) := List.not_mem_nil
    refine ⟨_, cut_showConfig p ps nothing, by simp, ?_⟩
    simp [entryOf_showParams, entries]

/-- What was printed is read back, up to the size of the array. A longer mapping
is refused, and nothing is stored past the array. -/
theorem parseRxConfig_showConfig (ps : List LcoreParams) (o : Options) :
    ∃ stores rv o', (parseRxConfig (showConfig ps)).Returns o stores rv o' ∧
      (∀ i, .lcoreParamsArray i ∈ stores → i < maxLcoreParams) ∧
      if ps.length ≤ maxLcoreParams then
        rv = 0 ∧ o'.lcoreParams = .array ∧ o'.nLcoreParams = ps.length ∧
          o'.lcoreParamsArray.toList.take o'.nLcoreParams = ps
      else rv = -1 := by
  obtain ⟨gs, cut, size, entries⟩ := showConfig_groups ps
  have inside {stores : List Store} {rv : Int} {o' : Options}
      (run : (parseRxConfig (showConfig ps)).Returns o stores rv o') :
      ∀ i, .lcoreParamsArray i ∈ stores → i < maxLcoreParams :=
    fun i stored => parseRxConfig_inside run _ stored
  rcases parseRxConfig_returns ⟨showConfig ps, noNul_showConfig ps⟩ o with
    ⟨gs', rest, es, stores, cut', accepted, run⟩ | ⟨refused, stores, o', run⟩
  · obtain ⟨rfl, rfl⟩ := cut.unique cut'
    obtain rfl : ps = es := Option.some.inj (entries.symm.trans accepted.1)
    have room : ps.length ≤ maxLcoreParams := by
      have room := accepted.2
      omega
    have ⟨count, mapping⟩ := loaded_mapping o room
    refine ⟨stores, 0, o.loaded ps, run, inside run, ?_⟩
    rw [if_pos room]
    exact ⟨rfl, rfl, count, mapping⟩
  · have many : ¬ ps.length ≤ maxLcoreParams := by
      intro room
      exact refused gs [] ps cut ⟨entries, by omega⟩
    refine ⟨stores, -1, o', run, inside run, ?_⟩
    rw [if_neg many]

end Udp
