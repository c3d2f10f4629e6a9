import Acton.Argparse
import Acton.ToMathlib.Except
import Mathlib.Data.List.TakeWhile

/-!
# What happens to the tokens of a level

`Takes` lists what can happen to a token: it is an option, an option with its value, a group of
short options, the sub-command, or it is passed on. `Reads` is the same for all tokens of a level.
The loop of the code reads the tokens in this way, unless there are tokens to pass on before a `--`:
those are dropped (`readArgs_meets`).
-/

namespace Acton.Argparse
open List Argparse.Parser
variable {F : Type} {b : Builtins} {p : Parser F} {st st' : ReadState F}

/-! ## The rules -/

/-- The text of a long option. -/
def longText (key : String) : Option String → String
  | none => String.ofList ('-' :: '-' :: key.toList)
  | some val => String.ofList ('-' :: '-' :: (key.toList ++ '=' :: val.toList))

/-- The known characters are flags, and the others are `unknown`. -/
inductive Group (p : Parser F) : Options → List Char → Options → List Char → Prop
  | nil {options} : Group p options [] options []
  | flag {options options' c cs unknown key spec} : get p.shortOpts c = some key →
      get p.opts key = some spec → spec.type = .bool →
      Group p (setFlag options key) cs options' unknown →
      Group p options (c :: cs) options' unknown
  | unknown {options options' c cs unknown} : get p.shortOpts c = none →
      Group p options cs options' unknown → Group p options (c :: cs) options' (c :: unknown)

/-- The unknown characters of a group are passed on. -/
def ReadState.passGroup (st : ReadState F) (options : Options) (unknown : List Char) :
    ReadState F :=
  if unknown = [] then st.setOptions options
  else (st.setOptions options).pass (String.ofList ('-' :: unknown))

/-- The options after an option of the parser got a value. -/
def Stores (b : Builtins) (p : Parser F) (key val : String) (options options' : Options) : Prop :=
  ∃ spec label, get p.opts key = some spec ∧ spec.type ≠ .bool ∧
    storeValue b label key spec.type val options = .ok options'

inductive Takes (b : Builtins) (p : Parser F) (st : ReadState F) : List String → ReadState F → Prop
  | flag {key val spec} : '=' ∉ key.toList → get p.opts key = some spec → spec.type = .bool →
      Takes b p st [longText key val] (st.setOptions (setFlag st.res.options key))
  | long {key val options} : '=' ∉ key.toList → Stores b p key val st.res.options options →
      Takes b p st [longText key (some val)] (st.setOptions options)
  | longValue {key val options} : '=' ∉ key.toList → Stores b p key val st.res.options options →
      Takes b p st [longText key none, val] (st.setOptions options)
  | short {c cs key options} : c ≠ '-' → get p.shortOpts c = some key → cs ≠ [] →
      Stores b p key (String.ofList cs) st.res.options options →
      Takes b p st [String.ofList ('-' :: c :: cs)] (st.setOptions options)
  | group {cs options unknown} : cs ≠ [] → cs.head? ≠ some '-' →
      Group p st.res.options cs options unknown →
      Takes b p st [String.ofList ('-' :: cs)] (st.passGroup options unknown)
  | groupValue {cs c val key options options' unknown} : (cs ++ [c]).head? ≠ some '-' →
      Group p st.res.options cs options unknown → get p.shortOpts c = some key →
      Stores b p key val options options' →
      Takes b p st [String.ofList ('-' :: (cs ++ [c])), val] (st.passGroup options' unknown)
  | command {arg help parser fn} : st.cmdParser = none → get p.cmds arg = some (help, parser, fn) →
      Takes b p st [arg]
        { st with
          res := { st.res with cmd := some fn, cmdParser := some parser }
          cmdParser := some parser }
  | pass {arg} : Takes b p st [arg] (st.pass arg)

inductive Reads (b : Builtins) (p : Parser F) : ReadState F → List String → ReadState F → Prop
  | nil {s} : Reads b p s [] s
  -- what stands behind the separator is passed on
  | separator {s argv} : Reads b p s ("--" :: argv) { s with rest := s.rest ++ argv }
  | cons {s s₁ s' toks argv} : Takes b p s toks s₁ → Reads b p s₁ argv s' →
      Reads b p s (toks ++ argv) s'

/-! ## One token -/

/-- Every short option is an option. -/
def Parser.Known (p : Parser F) : Prop :=
  ∀ c key, get p.shortOpts c = some key → (get p.opts key).isSome

/-- The errors that a level raises, if its short options are options. -/
def Blames (p : Parser F) (e : Err) : Prop := p.Known → e.isArgumentError

lemma storeValue_meets (p : Parser F) (label key : String) (type : OptType) (val : String)
    (options : Options) :
    (storeValue b label key type val options).Meets (Blames p) fun options' =>
      storeValue b label key type val options = .ok options' := by
  cases type with
  | int =>
    rw [storeValue]
    cases b.int val with
    | none => exact fun _ => rfl
    | some n => rfl
  | bool => rfl
  | str => rfl
  | strlist => rfl

/-- How the result of a token is: taken alone, or together with the next one. -/
def TakesNext (b : Builtins) (p : Parser F) (st : ReadState F) (arg : String) (next : Option String)
    (r : ReadState F × Bool) : Prop :=
  if r.2 then ∃ val, next = some val ∧ Takes b p st [arg, val] r.1 else Takes b p st [arg] r.1

lemma readLong_meets {arg : String} {body : List Char} (harg : arg.toList = '-' :: '-' :: body)
    (next : Option String) (st : ReadState F) :
    (p.readLong b arg body next st).Meets (Blames p) (TakesNext b p st arg next) := by
  have harg : arg = String.ofList ('-' :: '-' :: body) := by rw [← harg, String.ofList_toList]
  set key := String.ofList (body.takeWhile (· ≠ '=')) with hkey
  have hkeyList : key.toList = body.takeWhile (· ≠ '=') := by rw [hkey, String.toList_ofList]
  have hnot : '=' ∉ key.toList := by
    rw [hkeyList]
    intro h
    simpa using mem_takeWhile_imp h
  have hbody : body.takeWhile (· ≠ '=') ++ body.dropWhile (· ≠ '=') = body :=
    takeWhile_append_dropWhile
  rw [← hkeyList] at hbody
  unfold readLong
  simp only [← hkey]
  cases hspec : get p.opts key with
  | none => exact Takes.pass
  | some spec =>
    dsimp only
    cases hdrop : body.dropWhile (· ≠ '=') with
    | nil =>
      have harg : arg = longText key none := by
        rw [harg, longText, ← hbody, hdrop, append_nil]
      split_ifs with htype
      · rw [harg]
        exact Takes.flag hnot hspec htype
      · cases next with
        | none => exact fun _ => rfl
        | some val =>
          refine (storeValue_meets p key key spec.type val st.res.options).bind fun options h => ?_
          exact ⟨val, rfl, harg ▸ Takes.longValue hnot ⟨spec, key, hspec, htype, h⟩⟩
    | cons c val =>
      have hc : c = '=' := by
        have := head_dropWhile_not (· ≠ '=') (l := body) (by rw [hdrop]; simp)
        simp only [hdrop, head_cons] at this
        simpa using this
      have harg : arg = longText key (some (String.ofList val)) := by
        rw [harg, longText, ← hbody, hdrop, hc, String.toList_ofList (l := val)]
      split_ifs with htype
      · rw [harg]
        exact Takes.flag hnot hspec htype
      · refine (storeValue_meets p key key spec.type _ st.res.options).bind fun options h => ?_
        rw [harg]
        exact Takes.long hnot ⟨spec, key, hspec, htype, h⟩

/-- The loop over a group: `cs` has been read. -/
theorem readGroup_meets {next : Option String} {cs : List Char} {options : Options}
    (unknown : List Char) :
    (p.readGroup b next cs options unknown).Meets (Blames p) fun r =>
      if r.2.2 then ∃ cs' c val key options' more, cs = cs' ++ [c] ∧ next = some val ∧
        Group p options cs' options' more ∧ get p.shortOpts c = some key ∧
        Stores b p key val options' r.1 ∧ r.2.1 = unknown ++ more
      else ∃ more, Group p options cs r.1 more ∧ r.2.1 = unknown ++ more := by
  induction cs generalizing options unknown with
  | nil => exact ⟨[], .nil, (append_nil _).symm⟩
  | cons c cs ih =>
    rw [readGroup]
    cases hkey : get p.shortOpts c with
    | none =>
      refine (ih (unknown ++ [c])).mono fun r _ hr => ?_
      split_ifs at hr ⊢
      · obtain ⟨cs', d, val, key, options', more, rfl, hnext, hgroup, hd, hstores, hr⟩ := hr
        exact ⟨c :: cs', d, val, key, options', c :: more, rfl, hnext, .unknown hkey hgroup, hd,
          hstores,
          by rw [hr, append_assoc, singleton_append]⟩
      · obtain ⟨more, hgroup, hr⟩ := hr
        exact ⟨c :: more, .unknown hkey hgroup, by rw [hr, append_assoc, singleton_append]⟩
    | some key =>
      dsimp only
      cases hspec : get p.opts key with
      | none => exact fun hp => absurd (hp c key hkey) (by simp [hspec])
      | some spec =>
        dsimp only
        split_ifs with htype hcs
        · -- a flag
          refine (ih unknown).mono fun r _ hr => ?_
          split_ifs at hr ⊢
          · obtain ⟨cs', d, val, key', options', more, rfl, hnext, hgroup, hd, hstores, hr⟩ := hr
            exact ⟨c :: cs', d, val, key', options', more, rfl, hnext,
              .flag hkey hspec htype hgroup, hd,
              hstores, hr⟩
          · obtain ⟨more, hgroup, hr⟩ := hr
            exact ⟨more, .flag hkey hspec htype hgroup, hr⟩
        · exact fun _ => rfl
        · cases next with
          | none => exact fun _ => rfl
          | some val =>
            refine (storeValue_meets p _ key spec.type val options).bind fun options' h => ?_
            exact ⟨[], c, val, key, options, [], by rw [not_not.mp hcs]; rfl, rfl, .nil, hkey,
              ⟨spec, _, hspec, htype, h⟩, (append_nil _).symm⟩

lemma inlineOption_meets (chars : List Char) :
    (p.inlineOption chars).Meets (Blames p) fun r => ∀ c key type val,
      r = some (c, key, type, val) → chars = c :: val ∧ val ≠ [] ∧ get p.shortOpts c = some key ∧
        ∃ spec, get p.opts key = some spec ∧ spec.type = type ∧ type ≠ .bool := by
  unfold inlineOption
  split
  · rename_i first c cs
    cases hkey : get p.shortOpts first with
    | none => exact fun _ _ _ _ h => nomatch h
    | some key =>
      dsimp only
      cases hspec : get p.opts key with
      | none => exact fun hp => absurd (hp first key hkey) (by simp [hspec])
      | some spec =>
        dsimp only
        split_ifs with htype
        · exact fun _ _ _ _ h => nomatch h
        · rintro _ _ _ _ ⟨⟩
          exact ⟨rfl, cons_ne_nil _ _, hkey, spec, hspec, rfl, htype⟩
  · exact fun _ _ _ _ h => nomatch h

lemma readShort_meets {c : Char} {cs : List Char} (hc : c ≠ '-')
    (next : Option String) (st : ReadState F) :
    (p.readShort b (c :: cs) next st).Meets (Blames p)
      (TakesNext b p st (String.ofList ('-' :: c :: cs)) next) := by
  refine (inlineOption_meets (c :: cs)).bind fun r hr => ?_
  have hhead : (c :: cs).head? ≠ some '-' := by simpa using hc
  rcases r with _ | ⟨first, key, type, val⟩
  · refine (readGroup_meets []).bind fun r hr => ?_
    obtain ⟨options, unknown, skip⟩ := r
    cases skip with
    | false =>
      obtain ⟨more, hgroup, rfl⟩ := hr
      exact Takes.group (cons_ne_nil _ _) hhead hgroup
    | true =>
      obtain ⟨cs', d, val, key, options', more, hcs, hnext, hgroup, hd, hstores, rfl⟩ := hr
      refine ⟨val, hnext, ?_⟩
      rw [hcs] at hhead ⊢
      exact Takes.groupValue hhead hgroup hd hstores
  · obtain ⟨hchars, hval, hkey, spec, hspec, rfl, htype⟩ := hr first key type val rfl
    obtain ⟨rfl, rfl⟩ := List.cons.inj hchars
    refine (storeValue_meets p _ key spec.type _ st.res.options).bind fun options h => ?_
    exact Takes.short hc hkey hval ⟨spec, _, hspec, htype, h⟩

lemma readWord_takes (arg : String) (st : ReadState F) :
    Takes b p st [arg] (p.readWord arg st) := by
  unfold readWord
  split
  · rename_i hcmd hnone
    exact .command hnone hcmd
  · exact .pass

lemma readArg_meets (arg : String) (next : Option String) (st : ReadState F) :
    (p.readArg b arg next st).Meets (Blames p) (TakesNext b p st arg next) := by
  unfold readArg
  split
  · rename_i body harg
    exact readLong_meets harg next st
  · rename_i c cs hnot harg
    have hc : c ≠ '-' := fun h => hnot h
    rw [show arg = String.ofList ('-' :: c :: cs) by rw [← harg, String.ofList_toList]]
    exact readShort_meets hc next st
  · exact readWord_takes arg st

/-! ## All tokens of a level -/

/-- The tokens to pass on before a `--` are not dropped: there are none. -/
def NothingDropped (r : ReadState F × Option (List String)) : Prop := r.2.isSome → r.1.rest = []

/-- The loop reads all tokens, and drops what was to pass on before a `--`. -/
theorem readArgs_meets (argv : List String) (st : ReadState F) :
    (p.readArgs b argv false st).Meets (Blames p) fun r =>
      NothingDropped r → Reads b p st argv { r.1 with rest := Parser.restOf r.1 r.2 } := by
  -- the loop may skip a token, so the induction is on the length
  induction hn : argv.length using Nat.strong_induction_on generalizing argv st with
  | _ n ih =>
    cases argv with
    | nil => exact fun _ => .nil
    | cons arg argv =>
      rw [readArgs]
      split_ifs with harg
      · subst harg
        intro h
        have hsep : Reads b p st ("--" :: argv) { st with rest := st.rest ++ argv } := .separator
        rwa [show st.rest = [] from h rfl] at hsep
      · have hstep := readArg_meets (b := b) (p := p) arg argv.head? st
        cases hread : p.readArg b arg argv.head? st with
        | error e =>
          rw [hread] at hstep
          exact hstep
        | ok r =>
          obtain ⟨st1, skip⟩ := r
          rw [hread] at hstep
          subst hn
          cases skip with
          | false =>
            refine (ih argv.length (by simp) argv st1 rfl).mono fun r _ hr h => ?_
            exact .cons hstep (hr h)
          | true =>
            obtain ⟨val, hval, htakes⟩ := hstep
            obtain ⟨argv, rfl⟩ := head?_eq_some_iff.mp hval
            have hlt : argv.length < (arg :: val :: argv).length :=
              (Nat.lt_succ_self _).trans (Nat.lt_succ_self _)
            refine (ih argv.length hlt argv st1 rfl).mono fun r _ hr h => ?_
            exact .cons htakes (hr h)

/-! ## Commands use up tokens -/

/-- The sub-command is counted with the tokens to pass on. -/
def ReadState.size (st : ReadState F) : ℕ := st.rest.length + st.cmdParser.toList.length

lemma Takes.size_le {toks : List String} (h : Takes b p st toks st') : st'.size ≤ st.size + 1 := by
  cases h with
  | group _ _ _ | groupValue _ _ _ _ =>
    unfold ReadState.passGroup
    split_ifs
    · exact Nat.le_succ _
    · simp only [ReadState.size, ReadState.pass, ReadState.setOptions, length_append,
        length_singleton]
      omega
  | command h _ => simp [ReadState.size, h]
  | pass =>
    simp only [ReadState.size, ReadState.pass, length_append, length_singleton]
    omega
  | _ => exact Nat.le_succ _

lemma readArgs_induction {I : ReadState F → List String → Prop}
    (hskip : ∀ st arg argv, I st (arg :: argv) → I st argv)
    (hstep : ∀ st toks st' arg argv, Takes b p st toks st' → I st (arg :: argv) → I st' argv)
    {argv : List String} {skip : Bool} {st st' : ReadState F} {behind : Option (List String)}
    (h : p.readArgs b argv skip st = .ok (st', behind)) (hst : I st argv) :
    I st' (behind.elim [] ("--" :: ·)) := by
  induction argv generalizing skip st with
  | nil =>
    obtain ⟨rfl, rfl⟩ := Prod.mk.inj (Except.ok.inj h)
    exact hst
  | cons arg argv ih =>
    cases skip with
    | true => exact ih h (hskip _ _ _ hst)
    | false =>
      rw [readArgs] at h
      split_ifs at h with harg
      · obtain ⟨rfl, rfl⟩ := Prod.mk.inj (Except.ok.inj h)
        rwa [harg] at hst
      · have hread := readArg_meets (b := b) (p := p) arg argv.head? st
        cases hr : p.readArg b arg argv.head? st with
        | error e => simp [hr] at h
        | ok r =>
          obtain ⟨st1, skip⟩ := r
          rw [hr] at h hread
          refine ih h ?_
          cases skip with
          | false => exact hstep _ _ _ _ _ hread hst
          | true =>
            obtain ⟨val, -, htakes⟩ := hread
            exact hstep _ _ _ _ _ htakes hst

lemma readArgs_size_le {argv : List String} {skip : Bool} {st st' : ReadState F}
    {behind : Option (List String)} (h : p.readArgs b argv skip st = .ok (st', behind)) :
    (Parser.restOf st' behind).length + st'.cmdParser.toList.length ≤ st.size + argv.length := by
  have hsize := readArgs_induction
    (I := fun st1 argv1 => st1.size + argv1.length ≤ st.size + argv.length)
    (fun _ _ _ h => (Nat.le_succ _).trans h)
    (fun _ _ _ _ _ htakes h => (by have := htakes.size_le; simp at h; omega)) h le_rfl
  cases behind with
  | none => exact hsize
  | some behind =>
    simp only [restOf, Option.getD_some, ReadState.size, Option.elim, length_cons] at hsize ⊢
    omega

lemma length_restOf_lt {argv : List String} {res : Args F} {st : ReadState F}
    {behind : Option (List String)} {sub : Parser F}
    (h : p.readArgs b argv false ⟨res, [], none⟩ = .ok (st, behind))
    (hsub : st.cmdParser = some sub) :
    (Parser.restOf st behind).length < argv.length := by
  have := readArgs_size_le h
  simp only [hsub, ReadState.size, Option.toList, length_nil, length_singleton] at this
  omega

end Acton.Argparse
