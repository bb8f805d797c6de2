import Buster.Lib.CString

/-!
# `rte_strsplit`

The string is split in place: every delimiter that the loop comes to is
overwritten, and the tokens point into the string. `rteStrsplit_fields` says
which texts the tokens are in the end.
-/

namespace Udp

open CString

/-- The loop, with the part of the string before it: the string as it leaves it,
and the tokens as offsets from where it stands. -/
def strsplitLoop (stringlen maxtokens : Nat) (delim : Char) (i tok : Nat) (tokstart : Bool) :
    List Char → List Char × List Nat
  | [] => ([], [])
  | c :: cs =>
    if stringlen ≤ i ∨ c = '\x00' ∨ maxtokens ≤ tok then (c :: cs, [])
    else
      let token := if tokstart then [0] else []
      let rest := strsplitLoop stringlen maxtokens delim (i + 1) (tok + token.length)
        (c = delim) cs
      ((if c = delim then '\x00' else c) :: rest.1, token ++ rest.2.map (· + 1))

def rteStrsplit (stringlen maxtokens : Nat) (delim : Char) (string : List Char) :
    List Char × List Nat :=
  strsplitLoop stringlen maxtokens delim 0 0 true string

/-! ## The tokens -/

/-- At most `n` texts between delimiters; the last one takes the rest, unless it
starts with a delimiter. -/
def fields (delim : Char) : Nat → List Char → List (List Char)
  | 0, _ => []
  | _, [] => []
  | 1, c :: cs => if c = delim then [[]] else [c :: cs]
  | n + 2, c :: cs => (c :: cs).takeWhile (· ≠ delim) ::
      fields delim (n + 1) ((c :: cs).dropWhile (· ≠ delim)).tail

theorem fields_nil (delim : Char) (n : Nat) : fields delim n [] = [] := by
  rcases n with _ | _ | n
  · rfl
  · rfl
  · rfl

theorem takeWhile_cut {delim : Char} {a : List Char} (noDelim : delim ∉ a) (b : List Char) :
    (a ++ delim :: b).takeWhile (· ≠ delim) = a ∧
      (a ++ delim :: b).dropWhile (· ≠ delim) = delim :: b := by
  have plain : ∀ c ∈ a, (decide (c ≠ delim)) = true := by
    intro c hc
    simpa using fun e : c = delim => noDelim (e ▸ hc)
  rw [List.takeWhile_append_of_pos plain, List.dropWhile_append_of_pos plain]
  simp

theorem fields_cut {delim : Char} {a : List Char} (noDelim : delim ∉ a) (n : Nat) (b : List Char) :
    fields delim (n + 2) (a ++ delim :: b) = a :: fields delim (n + 1) b := by
  obtain ⟨taken, dropped⟩ := takeWhile_cut noDelim b
  cases a with
  | nil => simp [fields]
  | cons c a =>
    rw [List.cons_append] at taken dropped ⊢
    rw [fields, taken, dropped, List.tail_cons]

theorem fields_uncut {delim : Char} {g : List Char} (noDelim : delim ∉ g) (some : g ≠ [])
    (n : Nat) : fields delim (n + 1) g = [g] := by
  have plain : ∀ c ∈ g, (decide (c ≠ delim)) = true := by
    intro c hc
    simpa using fun e : c = delim => noDelim (e ▸ hc)
  cases g with
  | nil => exact absurd rfl some
  | cons c cs =>
    cases n with
    | zero =>
      have first : c ≠ delim := fun e => noDelim (e ▸ List.mem_cons_self)
      rw [fields, if_neg first]
    | succ n =>
      rw [fields, List.takeWhile_eq_self_iff.mpr plain, List.dropWhile_eq_nil_iff.mpr plain,
        List.tail_nil, fields_nil]

/-- The tokens as the strings that they point to in the end. -/
def tokenTexts (r : List Char × List Nat) : List (List Char) :=
  r.2.map fun t => ofBuffer (r.1.drop t)

section strsplit
variable {stringlen maxtokens i tok : Nat} {delim : Char} {tokstart : Bool}

theorem strsplitLoop_full (full : maxtokens ≤ tok) (l : List Char) :
    strsplitLoop stringlen maxtokens delim i tok tokstart l = (l, []) := by
  cases l with
  | nil => rfl
  | cons c cs =>
    unfold strsplitLoop
    rw [if_pos (.inr (.inr full))]

theorem strsplitLoop_nul (l : List Char) :
    strsplitLoop stringlen maxtokens delim i tok tokstart ('\x00' :: l) = ('\x00' :: l, []) := by
  unfold strsplitLoop
  rw [if_pos (.inr (.inl rfl))]

theorem strsplitLoop_cons {c : Char} (inside : i < stringlen) (some : c ≠ '\x00')
    (room : tok < maxtokens) (l : List Char) :
    strsplitLoop stringlen maxtokens delim i tok tokstart (c :: l) =
      let token := if tokstart then [0] else []
      let rest := strsplitLoop stringlen maxtokens delim (i + 1) (tok + token.length) (c = delim) l
      ((if c = delim then '\x00' else c) :: rest.1, token ++ rest.2.map (· + 1)) := by
  have going : ¬ (stringlen ≤ i ∨ c = '\x00' ∨ maxtokens ≤ tok) := by
    rintro (past | nul | full)
    · omega
    · exact some nul
    · omega
  rw [strsplitLoop, if_neg going]

/-- Inside a token nothing happens up to its delimiter. -/
theorem strsplitLoop_inside {a l : List Char} (inside : i + a.length ≤ stringlen)
    (noNul : '\x00' ∉ a) (noDelim : delim ∉ a) (room : tok < maxtokens) :
    let rest := strsplitLoop stringlen maxtokens delim (i + a.length) tok false l
    strsplitLoop stringlen maxtokens delim i tok false (a ++ l) =
      (a ++ rest.1, rest.2.map (· + a.length)) := by
  induction a generalizing i with
  | nil => simp
  | cons c a ih =>
    simp only [List.mem_cons, not_or] at noNul noDelim
    rw [List.length_cons] at inside
    have later := ih (by omega : i + 1 + a.length ≤ stringlen) noNul.2 noDelim.2
    have next : i + (a.length + 1) = i + 1 + a.length := by omega
    dsimp only at later
    rw [List.cons_append, strsplitLoop_cons (by omega) (Ne.symm noNul.1) room, List.length_cons,
      next]
    simp only [Bool.false_eq_true, if_false, List.length_nil, Nat.add_zero,
      if_neg (Ne.symm noDelim.1), decide_eq_false (Ne.symm noDelim.1), later, List.nil_append,
      List.cons_append, List.map_map]
    congr 1

/-- Up to its delimiter, which becomes its end, and on from behind that. -/
theorem strsplitLoop_delim {a l : List Char} (inside : i + a.length < stringlen)
    (noNul : '\x00' ∉ a) (noDelim : delim ∉ a) (delimChar : delim ≠ '\x00')
    (room : tok < maxtokens) :
    let rest := strsplitLoop stringlen maxtokens delim (i + a.length + 1) tok true l
    strsplitLoop stringlen maxtokens delim i tok false (a ++ delim :: l) =
      (a ++ '\x00' :: rest.1, rest.2.map (· + (a.length + 1))) := by
  intro rest
  rw [strsplitLoop_inside (by omega) noNul noDelim room,
    strsplitLoop_cons inside delimChar room]
  simp only [Bool.false_eq_true, if_false, if_true, List.length_nil, Nat.add_zero,
    List.nil_append, decide_true, List.map_map]
  congr 1
  apply List.map_congr_left
  intro t _
  rw [Function.comp_apply, Nat.add_assoc, Nat.add_comm 1]

theorem ofBuffer_append {a : List Char} (noNul : '\x00' ∉ a) (l : List Char) :
    ofBuffer (a ++ '\x00' :: l) = a := by
  unfold ofBuffer
  rw [List.takeWhile_append_of_pos]
  · simp
  · intro c hc
    simpa using fun e : c = '\x00' => noNul (e ▸ hc)

theorem ofBuffer_nul (l : List Char) : ofBuffer ('\x00' :: l) = [] := by
  simp [ofBuffer]

theorem tokenTexts_cons (c : Char) (s : List Char) (token tokens : List Nat) :
    tokenTexts (c :: s, token ++ tokens.map (· + 1)) =
      (token.map fun t => ofBuffer ((c :: s).drop t)) ++ tokenTexts (s, tokens) := by
  simp [tokenTexts]

theorem tokenTexts_append (a s : List Char) (tokens : List Nat) :
    tokenTexts (a ++ s, tokens.map (· + a.length)) = tokenTexts (s, tokens) := by
  simp only [tokenTexts, List.map_map]
  apply List.map_congr_left
  intro t _
  rw [Function.comp_apply, Nat.add_comm, List.drop_length_add_append]

theorem tokenTexts_behind (a : List Char) (r : List Char × List Nat) :
    tokenTexts (a ++ '\x00' :: r.1, r.2.map (· + (a.length + 1))) = tokenTexts r := by
  have shifted := tokenTexts_append (a ++ ['\x00']) r.1 r.2
  rwa [List.append_assoc, List.length_append, List.length_singleton] at shifted

theorem strsplitLoop_token {c : Char} (inside : i < stringlen) (some : c ≠ '\x00')
    (room : tok < maxtokens) (l : List Char) :
    let rest := strsplitLoop stringlen maxtokens delim (i + 1) (tok + 1) (c = delim) l
    tokenTexts (strsplitLoop stringlen maxtokens delim i tok true (c :: l)) =
      (if c = delim then [] else ofBuffer (c :: rest.1)) :: tokenTexts rest := by
  intro rest
  rw [strsplitLoop_cons inside some room]
  simp only [if_true, List.length_singleton]
  rw [tokenTexts_cons]
  simp only [List.map_cons, List.drop_zero, List.map_nil, List.singleton_append]
  by_cases cut : c = delim
  · rw [if_pos cut, if_pos cut, ofBuffer_nul]
  · rw [if_neg cut, if_neg cut]

/-- The last token that there is room for takes all that is left. -/
theorem strsplitLoop_last {g : List Char} (inside : i + g.length < stringlen) (noNul : '\x00' ∉ g)
    (last : tok + 1 = maxtokens) :
    tokenTexts (strsplitLoop stringlen maxtokens delim i tok true (g ++ ['\x00'])) =
      fields delim 1 g := by
  cases g with
  | nil =>
    rw [List.nil_append, strsplitLoop_nul]
    rfl
  | cons c cs =>
    have some : c ≠ '\x00' := fun e => noNul (e ▸ List.mem_cons_self)
    rw [List.cons_append, strsplitLoop_token (by omega) some (by omega),
      strsplitLoop_full (by omega), ← List.cons_append, ofBuffer_append noNul]
    by_cases cut : c = delim
    · simp [fields, cut, tokenTexts]
    · simp [fields, cut, tokenTexts]

/-- A token with a delimiter behind it. -/
theorem strsplitLoop_cut {a l : List Char} (delimChar : delim ≠ '\x00')
    (inside : i + a.length < stringlen) (noNul : '\x00' ∉ a) (noDelim : delim ∉ a)
    (room : tok + 1 < maxtokens) :
    tokenTexts (strsplitLoop stringlen maxtokens delim i tok true (a ++ delim :: l)) =
      a :: tokenTexts (strsplitLoop stringlen maxtokens delim (i + a.length + 1) (tok + 1) true
        l) := by
  cases a with
  | nil =>
    have here : i < stringlen := inside
    rw [List.nil_append, strsplitLoop_token here delimChar (by omega), if_pos rfl,
      decide_eq_true rfl]
    rfl
  | cons c cs =>
    have ⟨first, noNul'⟩ : '\x00' ≠ c ∧ '\x00' ∉ cs := by simpa using noNul
    have ⟨other, noDelim'⟩ : delim ≠ c ∧ delim ∉ cs := by simpa using noDelim
    rw [List.length_cons] at inside
    have next : i + 1 + cs.length + 1 = i + (cs.length + 1) + 1 := by omega
    rw [List.cons_append, strsplitLoop_token (by omega) (Ne.symm first) (by omega),
      if_neg (Ne.symm other), decide_eq_false (Ne.symm other),
      strsplitLoop_delim (by omega) noNul' noDelim' delimChar room, ← List.cons_append,
      ofBuffer_append noNul, tokenTexts_behind, next, List.length_cons]

/-- A token with none. -/
theorem strsplitLoop_uncut {g : List Char} (inside : i + g.length < stringlen)
    (noNul : '\x00' ∉ g) (noDelim : delim ∉ g) (some : g ≠ []) (room : tok + 1 < maxtokens) :
    tokenTexts (strsplitLoop stringlen maxtokens delim i tok true (g ++ ['\x00'])) = [g] := by
  cases g with
  | nil => exact absurd rfl some
  | cons c cs =>
    have ⟨first, noNul'⟩ : '\x00' ≠ c ∧ '\x00' ∉ cs := by simpa using noNul
    have ⟨other, noDelim'⟩ : delim ≠ c ∧ delim ∉ cs := by simpa using noDelim
    rw [List.length_cons] at inside
    rw [List.cons_append, strsplitLoop_token (by omega) (Ne.symm first) (by omega),
      if_neg (Ne.symm other), decide_eq_false (Ne.symm other),
      strsplitLoop_inside (by omega) noNul' noDelim' room, strsplitLoop_nul, ← List.cons_append,
      ofBuffer_append noNul]
    rfl

/-- From the start of a token on, with `n` of them left. -/
theorem strsplitLoop_fields {n : Nat} {g : List Char} (delimChar : delim ≠ '\x00')
    (count : tok + n = maxtokens) (inside : i + g.length < stringlen) (noNul : '\x00' ∉ g) :
    tokenTexts (strsplitLoop stringlen maxtokens delim i tok true (g ++ ['\x00'])) =
      fields delim n g := by
  induction n generalizing g i tok with
  | zero =>
    rw [strsplitLoop_full (by omega)]
    cases g <;> rfl
  | succ n ih =>
    cases n with
    | zero => exact strsplitLoop_last inside noNul (by omega)
    | succ n =>
      by_cases found : delim ∈ g
      · obtain ⟨a, b, rfl, noDelim⟩ := List.eq_append_cons_of_mem found
        simp only [List.mem_append, List.mem_cons, not_or] at noNul
        simp only [List.length_append, List.length_cons] at inside
        rw [List.append_assoc, List.cons_append,
          strsplitLoop_cut delimChar (by omega) noNul.1 noDelim (by omega),
          ih (by omega) (by omega) noNul.2.2, fields_cut noDelim]
      · by_cases empty : g = []
        · rw [empty, List.nil_append, strsplitLoop_nul, fields_nil]
          rfl
        · rw [strsplitLoop_uncut inside noNul found empty (by omega), fields_uncut found empty]

/-- Every token is the text of a field in the end. -/
theorem rteStrsplit_fields {g : List Char} (delimChar : delim ≠ '\x00')
    (inside : g.length < stringlen) (noNul : '\x00' ∉ g) :
    tokenTexts (rteStrsplit stringlen maxtokens delim (g ++ ['\x00'])) =
      fields delim maxtokens g :=
  strsplitLoop_fields delimChar (Nat.zero_add _) (by omega) noNul

end strsplit

end Udp
