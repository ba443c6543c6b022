/-
# Nova.Kernel.Cmdline — the command line

`Cmdline` of `src/cmdline.cpp` with `strncmp` of `inc/string.hpp`.  A pointer into a
string is the list of the characters from there to the terminating NUL, which is read
at the end of the list.

The comparison is as long as the token and not as the option, so it succeeds for every
prefix of the name.  `parse_exact_iff` says for which lines this makes no difference;
`parse_prefix_sets` is a line for which it does.
-/
import Nova.Theory.Tokens
import Mathlib.Logic.Function.Basic

namespace Nova.Kernel.Cmdline

open Nova.Theory.Tokens

set_option autoImplicit false

/-- `char` -/
abbrev Char8 := BitVec 8

/-- A string without its terminating NUL -/
structure CString where
  chars : List Char8
  clean : 0#8 ∉ chars

/-- `*p` -/
def deref (p : List Char8) : Char8 := p.headD 0#8

def space : Char8 := 0x20#8

/-- The variables of `Cmdline` -/
inductive Opt where
  | insecure | nodl | nopcid | nosmmu | noturbo | nouart | novpid
  deriving DecidableEq

/-- The order of `options` -/
def options : List Opt := [.insecure, .nodl, .nopcid, .nosmmu, .noturbo, .nouart, .novpid]

def literal (s : String) : List Char8 := s.toList.map fun c => BitVec.ofNat 8 c.toNat

/-- `options[i].str` -/
def Opt.str : Opt → List Char8
  | .insecure => literal "insecure"
  | .nodl => literal "nodl"
  | .nopcid => literal "nopcid"
  | .nosmmu => literal "nosmmu"
  | .noturbo => literal "noturbo"
  | .nouart => literal "nouart"
  | .novpid => literal "novpid"

/-- The loop of `strncmp` after `n` was decremented -/
def strncmpFrom : Nat → List Char8 → List Char8 → Int
  | 0, s1, s2 => (deref s1).toInt - (deref s2).toInt
  | n + 1, s1, s2 =>
      if deref s1 ≠ 0#8 ∧ deref s1 = deref s2 then strncmpFrom n s1.tail s2.tail
      else (deref s1).toInt - (deref s2).toInt

def strncmp (s1 s2 : List Char8) : Nat → Int
  | 0 => 0
  | n + 1 => strncmpFrom n s1 s2

/-- `for (; *line == ' '; line++) ;` -/
def skip : List Char8 → List Char8
  | [] => []
  | c :: rest => if c = space then skip rest else c :: rest

/-- `for (p = line; *p && *p != ' '; p++) ;`, the distance -/
def scan : List Char8 → Nat
  | [] => 0
  | c :: rest => if c ≠ 0#8 ∧ c ≠ space then scan rest + 1 else 0

/-- The length of the next token, and the line from there on -/
def argLen (line : List Char8) : Nat × List Char8 := (scan (skip line), skip line)

/-- The inner loop of `parse` -/
def setMatches (line : List Char8) (len : Nat) (os : List Opt) (var : Opt → Bool) : Opt → Bool :=
  os.foldl (fun var o => if strncmp o.str line len = 0 then Function.update var o true else var) var

def parseFrom : Nat → List Char8 → (Opt → Bool) → Option (Opt → Bool)
  | 0, _, _ => none
  | fuel + 1, line, var =>
      let (len, line) := argLen line
      if len = 0 then some var else parseFrom fuel (line.drop len) (setMatches line len options var)

/-- `Cmdline::parse`: the variables after it.  Every round but the last one takes a token. -/
def parse (line : CString) (var : Opt → Bool) : Option (Opt → Bool) := parseFrom (line.chars.length + 1) line.chars var

/-! ## The comparison -/

theorem str_clean (o : Opt) : 0#8 ∉ o.str := by
  cases o <;> decide

theorem mem_options (o : Opt) : o ∈ options := by
  cases o <;> decide

theorem difference_eq_zero (a b : Char8) : a.toInt - b.toInt = 0 ↔ a = b := by
  rw [Int.sub_eq_zero, BitVec.toInt_inj]

theorem strncmpFrom_eq_zero (n : Nat) {s1 s2 : List Char8} (clean1 : 0#8 ∉ s1) (clean2 : 0#8 ∉ s2) :
    strncmpFrom n s1 s2 = 0 ↔ s1.take (n + 1) = s2.take (n + 1) := by
  induction n generalizing s1 s2 with
  | zero =>
      rw [strncmpFrom, difference_eq_zero]
      cases s1 with
      | nil =>
          cases s2 with
          | nil => simp [deref]
          | cons d r2 => simp [deref, Ne.symm (List.ne_of_not_mem_cons clean2).symm]
      | cons c r1 =>
          cases s2 with
          | nil => simp [deref, (List.ne_of_not_mem_cons clean1).symm]
          | cons d r2 => simp [deref]
  | succ n ih =>
      cases s1 with
      | nil =>
          cases s2 with
          | nil => simp [strncmpFrom, deref]
          | cons d r2 =>
              have ne := List.ne_of_not_mem_cons clean2
              rw [strncmpFrom, if_neg fun both => both.1 rfl, difference_eq_zero]
              simp [deref, ne]
      | cons c r1 =>
          have ne := List.ne_of_not_mem_cons clean1
          cases s2 with
          | nil =>
              rw [strncmpFrom, if_neg fun both => ne both.2.symm, difference_eq_zero]
              simp [deref, ne.symm]
          | cons d r2 =>
              by_cases same : c = d
              · rw [strncmpFrom, if_pos ⟨ne.symm, same⟩, List.take_succ_cons, List.take_succ_cons, same, List.cons_inj_right]
                exact ih (List.not_mem_of_not_mem_cons clean1) (List.not_mem_of_not_mem_cons clean2)
              · rw [strncmpFrom, if_neg fun both => same both.2, difference_eq_zero]
                simp [deref, same]

/-- Equal up to the length of the token: the token is a prefix of the name. -/
theorem strncmp_eq_zero {name w rest : List Char8} (any : w ≠ []) (cleanName : 0#8 ∉ name) (clean : 0#8 ∉ w ++ rest) :
    strncmp name (w ++ rest) w.length = 0 ↔ w <+: name := by
  obtain ⟨n, length⟩ : ∃ n, w.length = n + 1 := Nat.exists_eq_succ_of_ne_zero (List.length_eq_zero_iff.not.mpr any)
  rw [length, strncmp, strncmpFrom_eq_zero n cleanName clean, ← length, List.take_left, List.prefix_iff_eq_take]
  exact eq_comm

theorem setMatches_eq_true (line : List Char8) (len : Nat) (os : List Opt) (var : Opt → Bool) (o : Opt) :
    setMatches line len os var o = true ↔ var o = true ∨ o ∈ os ∧ strncmp o.str line len = 0 := by
  induction os generalizing var with
  | nil => simp [setMatches]
  | cons p os ih =>
      have first : setMatches line len (p :: os) var =
          setMatches line len os (if strncmp p.str line len = 0 then Function.update var p true else var) := rfl
      rw [first, ih]
      by_cases hit : strncmp p.str line len = 0
      · rw [if_pos hit]
        by_cases same : o = p
        · subst same
          simp [hit]
        · simp [same]
      · rw [if_neg hit]
        by_cases same : o = p
        · subst same
          simp [hit]
        · simp [same]

/-! ## The tokens -/

/-- `' '` separates. -/
def Sep (c : Char8) : Prop := c = space

theorem skip_spec (line : List Char8) : (∀ t, Token Sep (skip line) t ↔ Token Sep line t) ∧
    (skip line).length ≤ line.length ∧ (∀ c, (skip line).head? = some c → ¬ Sep c) ∧ ∀ c ∈ skip line, c ∈ line := by
  induction line with
  | nil => exact ⟨fun _ => Iff.rfl, Nat.le_refl _, nofun, fun _ => id⟩
  | cons c rest ih =>
      rw [skip]
      split
      · rename_i is
        have isSep : Sep c := is
        obtain ⟨same, shorter, head, sub⟩ := ih
        exact ⟨fun t => (same t).trans (token_cons_sep isSep).symm, Nat.le_succ_of_le shorter, head,
          fun d member => List.mem_cons_of_mem c (sub d member)⟩
      · rename_i other
        exact ⟨fun _ => Iff.rfl, Nat.le_refl _, fun d head => Option.some.inj head ▸ other, fun _ => id⟩

/-- What `scan` measures: a run without spaces that ends at a space or at the end -/
theorem scan_spec {line : List Char8} (clean : 0#8 ∉ line) :
    ∃ w rest, line = w ++ rest ∧ scan line = w.length ∧ (∀ c ∈ w, ¬ Sep c) ∧ ∀ c, rest.head? = some c → Sep c := by
  induction line with
  | nil => exact ⟨[], [], rfl, rfl, nofun, nofun⟩
  | cons c line ih =>
      obtain ⟨w, rest, rfl, length, run, right⟩ := ih (List.not_mem_of_not_mem_cons clean)
      by_cases more : c ≠ 0#8 ∧ c ≠ space
      · refine ⟨c :: w, rest, rfl, by rw [scan, if_pos more, length, List.length_cons], fun d member => ?_, right⟩
        rcases List.mem_cons.mp member with rfl | member
        · exact more.2
        · exact run d member
      · refine ⟨[], c :: (w ++ rest), rfl, by rw [scan, if_neg more, List.length_nil], nofun, fun d head => ?_⟩
        by_contra other
        obtain rfl := Option.some.inj head
        exact more ⟨(List.ne_of_not_mem_cons clean).symm, other⟩

/-- The loop of `parse`: with a round for every character and one more it returns, and
an option is set by the prefixes of its name. -/
theorem parseFrom_spec {fuel : Nat} {line : List Char8} (enough : line.length < fuel) (clean : 0#8 ∉ line) (var : Opt → Bool) :
    ∃ result, parseFrom fuel line var = some result ∧
      ∀ o, result o = true ↔ var o = true ∨ ∃ t, Token Sep line t ∧ t <+: o.str := by
  induction fuel generalizing line var with
  | zero => exact absurd enough (Nat.not_lt_zero _)
  | succ fuel ih =>
      obtain ⟨same, shorter, head, sub⟩ := skip_spec line
      have cleanSkip : 0#8 ∉ skip line := fun member => clean (sub _ member)
      obtain ⟨w, rest, split, length, run, right⟩ := scan_spec cleanSkip
      rw [parseFrom, argLen]
      by_cases last : scan (skip line) = 0
      · refine ⟨var, by simp only [last, if_true], fun o => ?_⟩
        have nothing : skip line = [] := by
          rw [length, List.length_eq_zero_iff] at last
          rw [last, List.nil_append] at split
          cases rest with
          | nil => exact split
          | cons c rest => exact absurd (right c rfl) (head c (by rw [split]; rfl))
        have none (t : List Char8) : ¬ Token Sep line t := by
          rw [← same t, nothing]
          exact not_token_nil t
        exact ⟨Or.inl, fun h => h.elim id fun ⟨t, token, _⟩ => absurd token (none t)⟩
      · have any : w ≠ [] := fun nil => last (by rw [length, nil, List.length_nil])
        have front : Run Sep [] w rest := ⟨any, run, nofun, right⟩
        rw [split] at cleanSkip
        have drop : (skip line).drop (scan (skip line)) = rest := by rw [length, split, List.drop_left]
        have enough' : rest.length < fuel := by
          have positive : 0 < w.length := List.length_pos_iff.mpr any
          have whole := congrArg List.length split
          rw [List.length_append] at whole
          omega
        obtain ⟨result, done, exact_⟩ := ih enough' (fun member => cleanSkip (List.mem_append_right w member))
          (setMatches (skip line) (scan (skip line)) options var)
        refine ⟨result, by simp only [last, if_false, drop, done], fun o => ?_⟩
        have hit : strncmp o.str (skip line) (scan (skip line)) = 0 ↔ w <+: o.str := by
          rw [length, split]
          exact strncmp_eq_zero any (str_clean o) cleanSkip
        rw [exact_, setMatches_eq_true, hit]
        have tokens (t : List Char8) : Token Sep line t ↔ t = w ∨ Token Sep rest t := by
          rw [← same t, split]
          exact token_append front
        simp only [mem_options, true_and, tokens]
        constructor
        · rintro ((before | isPrefix) | ⟨t, token, isPrefix⟩)
          · exact .inl before
          · exact .inr ⟨w, .inl rfl, isPrefix⟩
          · exact .inr ⟨t, .inr token, isPrefix⟩
        · rintro (before | ⟨t, rfl | token, isPrefix⟩)
          · exact .inl (.inl before)
          · exact .inl (.inr isPrefix)
          · exact .inr ⟨t, token, isPrefix⟩

/-- What `parse` is expected to do: it returns, and an option is set if it was set before
or a token is its name. -/
def Exact (line : CString) (var : Opt → Bool) : Prop :=
  ∃ result, parse line var = some result ∧ ∀ o, result o = true ↔ var o = true ∨ Token Sep line.chars o.str

/-- **When parsing is exact.**  `parse` always returns.  It sets exactly the options that
the line names if and only if no token is a prefix of the name of an option that is
neither set before nor named by the line. -/
theorem parse_exact_iff (line : CString) (var : Opt → Bool) :
    Exact line var ↔
      ∀ o, var o = false → ¬ Token Sep line.chars o.str → ∀ t, Token Sep line.chars t → ¬ t <+: o.str := by
  obtain ⟨result, done, sets⟩ := parseFrom_spec (Nat.lt_succ_self _) line.clean var
  constructor
  · rintro ⟨result', done', expected⟩ o before unnamed t token isPrefix
    obtain rfl : result = result' := Option.some.inj (done.symm.trans done')
    have set : result o = true := (sets o).mpr (.inr ⟨t, token, isPrefix⟩)
    rcases (expected o).mp set with already | named
    · rw [before] at already
      cases already
    · exact unnamed named
  · intro apart
    refine ⟨result, done, fun o => (sets o).trans ⟨?_, ?_⟩⟩
    · rintro (before | ⟨t, token, isPrefix⟩)
      · exact .inl before
      · by_contra neither
        obtain ⟨unset, unnamed⟩ := not_or.mp neither
        exact apart o (Bool.eq_false_iff.mpr unset) unnamed t token isPrefix
    · rintro (before | named)
      · exact .inl before
      · exact .inr ⟨o.str, named, List.prefix_rfl⟩

/-- The command line "n" names no option, and sets six of them. -/
theorem parse_prefix_sets :
    (parse ⟨literal "n", by decide⟩ fun _ => false).map (fun var => options.filter var) =
        some [.nodl, .nopcid, .nosmmu, .noturbo, .nouart, .novpid] ∧
      ¬ ∀ line var, Exact line var := by
  refine ⟨by decide, fun all => ?_⟩
  have token : Token Sep (literal "n") (literal "n") := ⟨[], [], rfl, by decide, by unfold Sep; decide, nofun, nofun⟩
  refine (parse_exact_iff ⟨literal "n", by decide⟩ fun _ => false).mp (all _ _) .nodl rfl ?_ (literal "n") token (by decide)
  rintro ⟨before, after, split, -⟩
  have lengths : (literal "n").length = _ := congrArg List.length split
  rw [List.length_append, List.length_append] at lengths
  have short : (literal "n").length = 1 := by decide
  have long : Opt.nodl.str.length = 4 := by decide
  omega

end Nova.Kernel.Cmdline
