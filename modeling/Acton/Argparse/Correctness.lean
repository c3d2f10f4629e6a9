import Acton.Argparse.Parse

/-!
# What a successful parse accounts for

`Accounted`: every token was used by an option, as the value of an option, as a command or for a
positional argument of some level, and all required positional arguments of the levels that were
reached have values. `parse` raises an `ArgumentError` in all other cases (`parse_contract`), if

* at no level, there is a token to pass on before a `--`;
* all positional arguments have `nargs` `?` or `+`: for others, tokens are dropped;
* no token is left at the end, which the code does not check;
* the required positional arguments of sub-commands are there, which the code does not check either;
* no option with a value and no positional argument is called `help`.

None of these can be left out, and there has to be a name of the program (`parse_diverges`).
-/

namespace Acton.Argparse
open List OrderedMap Except Argparse.Parser ReadState
variable {F : Type} {b : Builtins} {p : Parser F}

/-! ## Dicts -/

lemma get_put {K V : Type} [DecidableEq K] (m : List (K × V)) (k k' : K) (v : V) :
    get (put m k v) k' = if k' = k then some v else get m k' :=
  lookup_insert m k k' v

variable {options : Options} {v : OptType × Value}

lemma isSome_get_put {key key' : String} (h : (get options key').isSome) :
    (get (put options key v) key').isSome := by
  rw [get_put]
  split_ifs
  · rfl
  · exact h

lemma isSome_get_put_self {key : String} : (get (put options key v) key).isSome := by
  rw [get_put, if_pos rfl]
  rfl

/-! ## Parsers that were built -/

/-- The parsers that the methods of the class build. -/
inductive Built (b : Builtins) : Parser F → Prop
  | new {cmd} : Built b (.new cmd)
  | addBool {p p' name help short} : Built b p → p.addBool b name help short = .ok p' → Built b p'
  | addOption {p p' name type default help short} : Built b p →
      p.addOption b name type default help short = .ok p' → Built b p'
  | addArg {p p' name help required nargs} : Built b p →
      p.addArg name help required nargs = .ok p' → Built b p'
  | addCmd {p sub name help fn} : Built b p → Built b sub → Built b (p.addCmd name help fn sub)

/-- Every short option is an option, and flags are off by default. -/
structure Parser.Ok (p : Parser F) : Prop where
  known : p.Known
  flag : ∀ e ∈ p.opts, e.2.type = .bool → e.2.default = some (.bool false)

lemma mem_put {K V : Type} [DecidableEq K] {m : List (K × V)} {k : K} {v : V} {e : K × V}
    (he : e ∈ put m k v) : e = (k, v) ∨ e ∈ m := by
  unfold put OrderedMap.insert at he
  split_ifs at he
  · obtain ⟨e', he', rfl⟩ := mem_map.mp he
    split_ifs with hk
    · exact .inl (by rw [eq_of_beq hk])
    · exact .inr he'
  · rcases mem_append.mp he with he | he
    · exact .inr he
    · exact .inl (mem_singleton.mp he)

variable {p' : Parser F} {short : Option String}

lemma addShort_eq {name : String} (h : p.addShort b name short = .ok p') :
    ∃ shortOpts, p' = { p with shortOpts := shortOpts } ∧
      ∀ c key, get shortOpts c = some key → key = name ∨ get p.shortOpts c = some key := by
  cases short with
  | none =>
    refine ⟨p.shortOpts, ?_, fun _ _ hkey => .inr hkey⟩
    cases p
    exact (ok.inj h).symm
  | some short =>
    rw [addShort] at h
    split at h
    · rename_i c _
      split_ifs at h
      refine ⟨_, (ok.inj h).symm, fun c' key hkey => ?_⟩
      rw [get_put] at hkey
      split_ifs at hkey
      · exact .inl (Option.some.inj hkey).symm
      · exact .inr hkey
    · cases h

lemma Parser.Ok.put {shortOpts : List (Char × String)} {name : String} {spec : OptSpec} (h : p.Ok)
    (hshort : ∀ c key, get shortOpts c = some key → key = name ∨ get p.shortOpts c = some key)
    (hspec : spec.type = .bool → spec.default = some (.bool false)) :
    Parser.Ok { p with shortOpts := shortOpts, opts := put p.opts name spec } where
  known c key hkey := by
    rw [get_put]
    split_ifs with hname
    · rfl
    · exact h.known c key ((hshort c key hkey).resolve_left hname)
  flag e he htype := by
    rcases mem_put he with rfl | he
    · exact hspec htype
    · exact h.flag e he htype

lemma addBool_eq {name help : String} (h : p.addBool b name help short = .ok p') :
    ∃ shortOpts, p' = { p with
        shortOpts := shortOpts
        opts := put p.opts name ⟨.bool, some (.bool false), help, short⟩ } ∧
      ∀ c key, get shortOpts c = some key → key = name ∨ get p.shortOpts c = some key := by
  obtain ⟨q, hq, h⟩ := bind_eq_ok_iff.mp h
  obtain ⟨shortOpts, rfl, hshort⟩ := addShort_eq hq
  exact ⟨shortOpts, (ok.inj h).symm, hshort⟩

lemma addOption_eq {name help : String} {type : OptType} {default : Option Value}
    (h : p.addOption b name type default help short = .ok p') :
    ∃ shortOpts, type ≠ .bool ∧ p' = { p with
        shortOpts := shortOpts
        opts := put p.opts name ⟨type, default, help, short⟩ } ∧
      ∀ c key, get shortOpts c = some key → key = name ∨ get p.shortOpts c = some key := by
  unfold addOption at h
  split_ifs at h with _ htype
  obtain ⟨q, hq, h⟩ := bind_eq_ok_iff.mp h
  obtain ⟨shortOpts, rfl, hshort⟩ := addShort_eq hq
  exact ⟨shortOpts, htype, (ok.inj h).symm, hshort⟩

lemma addArg_eq {name help : String} {required : Bool} {nargs : Nargs}
    (h : p.addArg name help required nargs = .ok p') :
    p' = { p with args := p.args ++ [⟨name, help, required, nargs⟩] } := by
  unfold addArg at h
  split_ifs at h
  exact (ok.inj h).symm

lemma Built.ok (h : Built b p) : p.Ok := by
  induction h with
  | new => exact ⟨fun c key h => by simp [Parser.new, get,
      OrderedMap.lookup] at h, by simp [Parser.new]⟩
  | addBool _ h ih =>
    obtain ⟨shortOpts, rfl, hshort⟩ := addBool_eq h
    exact ih.put hshort fun _ => rfl
  | addOption _ h ih =>
    obtain ⟨shortOpts, htype, rfl, hshort⟩ := addOption_eq h
    exact ih.put hshort fun h => absurd h htype
  | addArg _ h ih =>
    rw [addArg_eq h]
    exact ⟨ih.known, ih.flag⟩
  | addCmd _ _ ih _ => exact ⟨ih.known, ih.flag⟩

lemma Built.of_cmds (h : Built b p) {name help : String} {sub : Parser F} {fn : F}
    (hsub : get p.cmds name = some (help, sub, fn)) : Built b sub := by
  induction h with
  | new => simp [Parser.new, get, OrderedMap.lookup] at hsub
  | addBool _ h ih =>
    obtain ⟨shortOpts, rfl, -⟩ := addBool_eq h
    exact ih hsub
  | addOption _ h ih =>
    obtain ⟨shortOpts, -, rfl, -⟩ := addOption_eq h
    exact ih hsub
  | addArg _ h ih =>
    rw [addArg_eq h] at hsub
    exact ih hsub
  | addCmd _ hnew ih _ =>
    rw [Parser.addCmd, get_put] at hsub
    split_ifs at hsub
    · obtain ⟨rfl, rfl, rfl⟩ := Option.some.inj hsub
      exact hnew
    · exact ih hsub

/-! ## Positional arguments -/

/-- Tokens are given to positional arguments; those that are left come behind the others. -/
inductive Matches : List ArgSpec → Options → List String → Options → List String → Prop
  | done {args options} : Matches args options [] options []
  | left {options toks} : Matches [] options toks options toks
  | one {a args options tok toks options' left} : a.nargs = .one →
      Matches args (put options a.name (.str, .str tok)) toks options' left →
      Matches (a :: args) options (tok :: toks) options' left
  | more {a args options tok toks options' left} : a.nargs = .plus →
      Matches (a :: args) (appendValue options a.name tok) toks options' left →
      Matches (a :: args) options (tok :: toks) options' left
  | last {a args options tok toks options' left} : a.nargs = .plus →
      Matches args (appendValue options a.name tok) toks options' left →
      Matches (a :: args) options (tok :: toks) options' left

lemma matchArgs_nil (posargs : List String) (options : Options) (rest : List String) :
    Parser.matchArgs posargs [] options rest = ([], options, rest ++ posargs) := by
  induction posargs generalizing rest with
  | nil => rw [matchArgs, append_nil]
  | cons arg posargs ih => rw [matchArgs, ih, append_assoc, singleton_append]

variable {args : List ArgSpec}

lemma matchArgs_matches (posargs : List String) (options : Options)
    (hargs : ∀ a ∈ args, a.nargs = .one ∨ a.nargs = .plus) :
    ∃ args' options' left, Parser.matchArgs posargs args options [] = (args', options', left) ∧
      Matches args options posargs options' left ∧
      (∀ a ∈ args, a ∈ args' ∨ (get options' a.name).isSome) ∧
      ∀ key, (get options key).isSome → (get options' key).isSome := by
  induction posargs generalizing args options with
  | nil => exact ⟨args, options, [], rfl, .done, fun a ha => .inl ha, fun _ h => h⟩
  | cons arg posargs ih =>
    cases args with
    | nil =>
      exact ⟨[], options, arg :: posargs, by rw [matchArgs_nil, nil_append], .left,
        fun a ha => absurd ha not_mem_nil, fun _ h => h⟩
    | cons a args =>
      have hargs' : ∀ a ∈ args, a.nargs = .one ∨ a.nargs = .plus := fun a' ha' =>
        hargs a' (mem_cons_of_mem a ha')
      rw [matchArgs]
      rcases hargs a mem_cons_self with ha | ha
      · -- the argument is done
        obtain ⟨args', options', left, heq, hmatches, hdone, hkeys⟩ :=
          ih (put options a.name (.str, .str arg)) hargs'
        simp only [ha]
        refine ⟨args', options', left, heq, .one ha hmatches, ?_,
          fun _ h => hkeys _ (isSome_get_put h)⟩
        rintro a' (_ | ⟨_, ha'⟩)
        · exact .inr (hkeys _ isSome_get_put_self)
        · exact hdone a' ha'
      · simp only [ha]
        split_ifs
        · obtain ⟨args', options', left, heq, hmatches, hdone, hkeys⟩ :=
            ih (appendValue options a.name arg) hargs'
          refine ⟨args', options', left, heq, .last ha hmatches, ?_,
            fun _ h => hkeys _ (isSome_get_put h)⟩
          rintro a' (_ | ⟨_, ha'⟩)
          · exact .inr (hkeys _ isSome_get_put_self)
          · exact hdone a' ha'
        · -- the argument gets more values
          obtain ⟨args', options', left, heq, hmatches, hdone, hkeys⟩ :=
            ih (appendValue options a.name arg) hargs
          exact ⟨args', options', left, heq, .more ha hmatches, hdone,
            fun _ h => hkeys _ (isSome_get_put h)⟩

/-! ## The loop over the tokens -/

variable {st st' : ReadState F} {argv : List String} {behind : Option (List String)}
variable {toks : List String}

lemma Takes.cmdParser_eq (h : Takes b p st toks st') : st'.cmdParser = st.cmdParser ∨
      ∃ name help sub fn, get p.cmds name = some (help, sub, fn) ∧ st'.cmdParser = some sub := by
  cases h with
  | command _ hcmd => exact .inr ⟨_, _, _, _, hcmd, rfl⟩
  | group _ _ _ | groupValue _ _ _ _ =>
    unfold passGroup
    split_ifs <;> exact .inl rfl
  | _ => exact .inl rfl

/-- The sub-command is one of the commands of the level. -/
theorem Built.of_readArgs (hp : Built b p) {res : Args F} {st : ReadState F} {sub : Parser F}
    (h : p.readArgs b argv false (p.start res) = .ok (st, behind))
    (hsub : st.cmdParser = some sub) :
    Built b sub := by
  refine readArgs_induction (I := fun st _ => ∀ sub, st.cmdParser = some sub → Built b sub)
    (fun _ _ _ h => h) (fun st toks st' _ _ htakes hst sub hsub => ?_) h (fun _ h => nomatch h)
    sub hsub
  rcases htakes.cmdParser_eq with heq | ⟨_, _, _, _, hcmd, heq⟩
  · exact hst sub (heq.symm.trans hsub)
  · obtain rfl := Option.mem_unique heq hsub
    exact hp.of_cmds hcmd

/-! ## The option `help` -/

/-- The option has a truth value. -/
def HelpOk (options : Options) : Prop := ∃ v, get options "help" = some (.bool, .bool v)

lemma HelpOk.put {key : String} (h : HelpOk options)
    (hkey : key = "help" → ∃ b, v = (.bool, .bool b)) : HelpOk (put options key v) := by
  unfold HelpOk
  rw [get_put]
  split_ifs with heq
  · obtain ⟨b, rfl⟩ := hkey heq.symm
    exact ⟨b, rfl⟩
  · exact h

lemma HelpOk.setFlag (h : HelpOk options) (key : String) : HelpOk (setFlag options key) :=
  h.put fun _ => ⟨true, rfl⟩

/-- An option with this name is a flag. -/
def FlagHelp (p : Parser F) : Prop := ∀ e ∈ p.opts, e.1 = "help" → e.2.type = .bool

variable {options options' : Options}

lemma HelpOk.stores {key val : String} (h : HelpOk options) (hp : FlagHelp p)
    (hstores : Stores b p key val options options') : HelpOk options' := by
  obtain ⟨spec, label, hspec, htype, hstore⟩ := hstores
  have hkey {v : OptType × Value} : HelpOk (Argparse.put options key v) :=
    h.put fun heq => absurd (hp (key, spec) (mem_of_lookup hspec) heq) htype
  unfold storeValue at hstore
  split at hstore
  · split at hstore
    · rw [← ok.inj hstore]
      exact hkey
    · cases hstore
  · rw [← ok.inj hstore]
    exact hkey
  · rw [← ok.inj hstore]
    exact hkey
  · rwa [← ok.inj hstore]

lemma HelpOk.group {cs unknown : List Char} (h : HelpOk options)
    (hgroup : Group p options cs options' unknown) : HelpOk options' := by
  induction hgroup with
  | nil => exact h
  | flag _ _ _ _ ih => exact ih (h.setFlag _)
  | unknown _ _ ih => exact ih h

lemma passGroup_options (st : ReadState F) (options : Options) (unknown : List Char) :
    (st.passGroup options unknown).res.options = options := by
  unfold passGroup
  split_ifs <;> rfl

lemma HelpOk.readArgs (hst : HelpOk st.res.options) (hp : FlagHelp p)
    (h : p.readArgs b argv false st = .ok (st', behind)) : HelpOk st'.res.options := by
  refine readArgs_induction (I := fun st _ => HelpOk st.res.options) (fun _ _ _ h => h)
    (fun st toks st' _ _ htakes hst => ?_) h hst
  cases htakes with
  | flag _ _ _ => exact hst.setFlag _
  | long _ hstores | longValue _ hstores | short _ _ _ hstores => exact hst.stores hp hstores
  | group _ _ hgroup =>
    rw [passGroup_options]
    exact hst.group hgroup
  | groupValue _ hgroup _ hstores =>
    rw [passGroup_options]
    exact (hst.group hgroup).stores hp hstores
  | command _ _ => exact hst
  | pass => exact hst

lemma HelpOk.matches {toks left : List String} (h : HelpOk options)
    (hargs : ∀ a ∈ args, a.name ≠ "help") (hmatches : Matches args options toks options' left) :
    HelpOk options' := by
  induction hmatches with
  | done => exact h
  | left => exact h
  | one _ _ ih | last _ _ ih =>
    exact ih (h.put fun heq => absurd heq (hargs _ mem_cons_self))
      fun a ha => hargs a (mem_cons_of_mem _ ha)
  | more _ _ ih => exact ih (h.put fun heq => absurd heq (hargs _ mem_cons_self)) hargs

lemma HelpOk.foldl_insertDefault {opts : List (String × OptSpec)}
    (hopts : ∀ e ∈ opts, e.1 = "help" → e.2.type = .bool ∧ e.2.default = some (.bool false))
    (h : HelpOk options ∨ ∃ spec, ("help", spec) ∈ opts) :
    HelpOk (opts.foldl Parser.insertDefault options) := by
  induction opts generalizing options with
  | nil =>
    rcases h with h | ⟨spec, hspec⟩
    · exact h
    · exact absurd hspec not_mem_nil
  | cons e opts ih =>
    refine ih (fun e' he' => hopts e' (mem_cons_of_mem e he')) ?_
    unfold insertDefault
    by_cases hkey : e.1 = "help"
    · -- a flag, with its default
      obtain ⟨htype, hdefault⟩ := hopts e mem_cons_self hkey
      rw [hdefault]
      left
      unfold HelpOk
      rw [get_put, if_pos hkey.symm, htype]
      exact ⟨false, rfl⟩
    · rcases h with h | ⟨spec, hspec⟩
      · left
        split
        · exact h.put fun heq => absurd heq hkey
        · exact h
      · right
        rcases mem_cons.mp hspec with rfl | hmem
        · exact absurd rfl hkey
        · exact ⟨spec, hmem⟩

lemma HelpOk.foldl_insertEmpty (h : HelpOk options) (hargs : ∀ a ∈ args, a.name ≠ "help") :
    HelpOk (args.foldl Parser.insertEmpty options) := by
  induction args generalizing options with
  | nil => exact h
  | cons a args ih =>
    refine ih ?_ fun a' ha' => hargs a' (mem_cons_of_mem a ha')
    unfold insertEmpty
    split_ifs
    · exact h.put fun heq => absurd heq (hargs a mem_cons_self)
    · exact h

/-- The defaults of the level keep the option, or are where it comes from. -/
theorem HelpOk.insertDefaults (hp : p.Ok) (hflag : FlagHelp p)
    (hargs : ∀ a ∈ p.args, a.name ≠ "help") (h : HelpOk options ∨ ∃ spec, ("help", spec) ∈ p.opts) :
    HelpOk (p.insertDefaults options) :=
  (HelpOk.foldl_insertDefault (fun e he hkey => ⟨hflag e he hkey, hp.flag e he (hflag e he hkey)⟩)
    h).foldl_insertEmpty hargs

/-! ## Levels -/

/-- All tokens of a level and its sub-commands are accounted for, up to those that are left. The
last index has the positional arguments of all the levels. -/
inductive Accounts (b : Builtins) : Parser F → Args F → List String → Options → List String →
    List ArgSpec → Prop
  | level {p res argv st options left} : Reads b p (p.start res) argv st → st.cmdParser = none →
      Matches p.args st.res.options st.rest options left → Accounts b p res argv options left p.args
  | command {p res argv st sub options posargs args options' left} :
      Reads b p (p.start res) argv st → st.cmdParser = some sub →
      Accounts b sub st.res st.rest options posargs args →
      Matches p.args options posargs options' left →
      Accounts b p res argv options' left (p.args ++ args)

/-- What `parse` does not check at the levels that it reaches. -/
inductive Careful (b : Builtins) (injected : Bool) : Parser F → Args F → List String → Prop
  | mk {p res argv} : (∀ a ∈ p.args, a.nargs = .one ∨ a.nargs = .plus) →
      (injected → (∀ a ∈ p.args, a.name ≠ "help") ∧ FlagHelp p) →
      (∀ r, p.readArgs b argv false (p.start res) = .ok r → NothingDropped r) →
      (∀ st behind sub, p.readArgs b argv false (p.start res) = .ok (st, behind) →
        st.cmdParser = some sub → Careful b injected sub st.res (Parser.restOf st behind)) →
      Careful b injected p res argv

/-- The positional arguments of the sub-commands that are reached. -/
inductive SubArg (b : Builtins) : Parser F → Args F → List String → ArgSpec → Prop
  | here {p res argv st behind sub a} : p.readArgs b argv false (p.start res) = .ok (st, behind) →
      st.cmdParser = some sub → a ∈ sub.args → SubArg b p res argv a
  | deeper {p res argv st behind sub a} : p.readArgs b argv false (p.start res) = .ok (st, behind) →
      st.cmdParser = some sub → SubArg b sub st.res (Parser.restOf st behind) a →
      SubArg b p res argv a

variable {injected : Bool}

lemma Careful.help {res : Args F} (h : Careful b injected p res argv) (hinjected : injected) :
    (∀ a ∈ p.args, a.name ≠ "help") ∧ FlagHelp p := by
  cases h with
  | mk _ hhelp _ _ => exact hhelp hinjected

/-- What is known about the result of a level. -/
structure LevelOk (b : Builtins) (injected : Bool) (p : Parser F) (res : Args F)
    (argv : List String)
    (r : Parser F × Args F × List String) : Prop where
  accounts : ∃ args, Accounts b p res argv r.2.1.options r.2.2 args ∧
    ∀ a ∈ args, a ∈ p.args ∨ SubArg b p res argv a
  args : ∀ a ∈ p.args, a ∈ r.1.args ∨ (get r.2.1.options a.name).isSome
  help : injected → HelpOk (p.start res).res.options → HelpOk r.2.1.options

lemma finish_matches (hargs : ∀ a ∈ p.args, a.nargs = .one ∨ a.nargs = .plus) (prog : String)
    (res : Args F) (posargs : List String) (found : Bool) :
    let r := p.finish prog res posargs found
    Matches p.args res.options posargs r.2.1.options r.2.2 ∧
      ∀ a ∈ p.args, a ∈ r.1.args ∨ (get r.2.1.options a.name).isSome := by
  obtain ⟨args', options', left, heq, hmatches, hdone, -⟩ :=
    matchArgs_matches posargs res.options hargs
  simp only [finish, heq]
  exact ⟨hmatches, hdone⟩

lemma parseAndConsume_meets {res : Args F} (h : Careful b injected p res argv) (hp : Built b p)
    (resArgs : Option (Args F)) (hres : resArgs.getD {} = res) (prog : String) :
    (p.parseAndConsume b argv resArgs prog).Meets (·.isArgumentError)
      (LevelOk b injected p res argv) := by
  induction h generalizing resArgs prog with
  | @mk p res argv hargs hhelp hdropped hcareful ih =>
    subst hres
    unfold parseAndConsume
    have hreads := readArgs_meets (b := b) (p := p) argv (p.start (resArgs.getD {}))
    split
    · rename_i e hread
      rw [hread] at hreads
      exact hreads hp.ok.known
    · rename_i st behind hread
      rw [hread] at hreads
      have hreads := hreads (hdropped _ hread)
      split
      · -- no sub-command
        rename_i hsub
        obtain ⟨hmatches, hdone⟩ := finish_matches hargs prog st.res (restOf st behind) false
        exact {
          accounts := ⟨p.args, .level hreads hsub hmatches, fun a ha => .inl ha⟩
          args := hdone
          help := fun hi h => (h.readArgs (hhelp hi).2 hread).matches (hhelp hi).1 hmatches }
      · rename_i sub hsub
        have hbuilt := hp.of_readArgs hread hsub
        have hlevel := ih st behind sub hread hsub hbuilt (some st.res) rfl
          (prog ++ " " ++ sub.cmd)
        split
        · rename_i e hrec
          rw [hrec] at hlevel
          exact hlevel
        · rename_i sub' res' posargs hrec
          rw [hrec] at hlevel
          obtain ⟨args, haccounts, hsubArgs⟩ := hlevel.accounts
          obtain ⟨hmatches, hdone⟩ := finish_matches hargs prog res' posargs true
          refine {
            accounts := ⟨p.args ++ args, .command hreads hsub haccounts hmatches, fun a ha => ?_⟩
            args := hdone
            help := fun hi h => ?_ }
          · rcases mem_append.mp ha with ha | ha
            · exact .inl ha
            · rcases hsubArgs a ha with ha | ha
              · exact .inr (.here hread hsub ha)
              · exact .inr (.deeper hread hsub ha)
          · have hsubHelp := (hcareful st behind sub hread hsub).help hi
            refine (hlevel.help hi ?_).matches (hhelp hi).1 hmatches
            exact HelpOk.insertDefaults hbuilt.ok hsubHelp.2 hsubHelp.1
              (.inl (h.readArgs (hhelp hi).2 hread))

/-! ## The whole command line -/

/-- The parser with the option `help`. -/
def Parser.withHelp (p : Parser F) : Parser F :=
  if (get p.opts "help").isNone then
    { p with opts := put p.opts "help" ⟨.bool, some (.bool false), "show this help message", none⟩ }
  else p

lemma injectHelp_eq (p : Parser F) :
    p.injectHelp b = .ok (p.withHelp, (get p.opts "help").isNone) := by
  unfold injectHelp withHelp
  split_ifs with h
  · rw [h]
    rfl
  · rw [Bool.not_eq_true] at h
    rw [h]

lemma Built.withHelp (hp : Built b p) : Built b p.withHelp := by
  unfold Parser.withHelp
  split_ifs
  · have hadd : p.addBool b "help" "show this help message" none = .ok { p with
        opts := put p.opts "help" ⟨.bool, some (.bool false), "show this help message", none⟩ } :=
        rfl
    exact hp.addBool hadd
  · exact hp

/-- All tokens are used, and the required positional arguments have values. -/
def Accounted (b : Builtins) (p : Parser F) (argv : List String) (args : Args F) : Prop :=
  ∃ prog toks posargs, argv = prog :: toks ∧ Accounts b p.withHelp {} toks args.options [] posargs ∧
    ∀ a ∈ posargs, a.required → (get args.options a.name).isSome

/-- A parse accounts for the whole command line, or raises an `ArgumentError`. -/
def Contract (b : Builtins) (p : Parser F) (argv : List String) : Prop :=
  (p.parse b argv).Meets (·.isArgumentError) (Accounted b p argv)

lemma checkRequired_meets (options : Options) (args : List ArgSpec) :
    (Parser.checkRequired options args).Meets (·.isArgumentError) fun _ =>
      ∀ a ∈ args, a.required → (get options a.name).isSome := by
  induction args with
  | nil => exact fun a ha => absurd ha not_mem_nil
  | cons a args ih =>
    rw [checkRequired]
    split_ifs with h
    · rfl
    · refine ih.mono fun _ _ hargs a' ha' hrequired => ?_
      rcases mem_cons.mp ha' with rfl | ha'
      · by_contra hnone
        exact h (by simpa [hrequired] using hnone)
      · exact hargs a' ha' hrequired

lemma checkHelp_meets {args : Args F} (h : HelpOk args.options) :
    (p.checkHelp b args).Meets (·.isArgumentError) fun _ => True := by
  obtain ⟨v, hv⟩ := h
  unfold checkHelp Args.getBool
  rw [hv]
  cases v with
  | false => trivial
  | true =>
    cases args.cmdParser with
    | none => rfl
    | some cmdParser => rfl

lemma checkResult_meets {args : Args F} (h : injected → HelpOk args.options) :
    (p.checkResult b injected args).Meets (·.isArgumentError) fun args' =>
      args' = args ∧ ∀ a ∈ p.args, a.required → (get args.options a.name).isSome := by
  have hrequired := (checkRequired_meets args.options p.args).bind (f := fun _ => .ok args)
    (R := fun args' => args' = args ∧ ∀ a ∈ p.args, a.required → (get args.options a.name).isSome)
    fun _ h => ⟨rfl, h⟩
  cases injected with
  | false => exact hrequired
  | true => exact (checkHelp_meets (h rfl)).bind fun _ _ => hrequired

lemma checkResult_eq_ok {args args' : Args F} (h : p.checkResult b injected args = .ok args') :
    args' = args := by
  have hrequired {u : Except Err Unit} (h : (u >>= fun _ => .ok args) = .ok args') :
      args' = args := by
    obtain ⟨_, _, h⟩ := bind_eq_ok_iff.mp h
    exact (ok.inj h).symm
  cases injected with
  | false => exact hrequired h
  | true =>
    obtain ⟨_, _, h⟩ := bind_eq_ok_iff.mp h
    exact hrequired h

/-- The option `help` comes from the defaults of the level where it was added. -/
theorem helpOk_withHelp (hp : Built b p) (hnone : (get p.opts "help").isNone)
    (hhelp : (∀ a ∈ p.withHelp.args, a.name ≠ "help") ∧ FlagHelp p.withHelp) (options : Options) :
    HelpOk (p.withHelp.insertDefaults options) := by
  refine HelpOk.insertDefaults hp.withHelp.ok hhelp.2 hhelp.1
    (.inr ⟨⟨.bool, some (.bool false), "show this help message", none⟩, mem_of_lookup ?_⟩)
  rw [withHelp, if_pos hnone]
  exact (get_put ..).trans (if_pos rfl)

lemma parse_cons (prog : String) (toks : List String) : p.parse b (prog :: toks) =
    p.withHelp.parseAndConsume b toks none prog >>= fun r =>
      r.1.checkResult b (get p.opts "help").isNone r.2.1 := by
  rw [parse, injectHelp_eq]
  rfl

/-- A command line with a name of the program is accounted for, under what the code does not check:
see `Careful`, and no token is left, and required arguments of sub-commands have values. -/
theorem parse_contract (b : Builtins) (p : Parser F) (prog : String) (toks : List String)
    (hp : Built b p) (hcareful : Careful b (get p.opts "help").isNone p.withHelp {} toks)
    (hrest : ∀ q args rest, p.withHelp.parseAndConsume b toks none prog = .ok (q, args, rest) →
      rest = []) (hsub : ∀ args, p.parse b (prog :: toks) = .ok args →
      ∀ a, SubArg b p.withHelp {} toks a → a.required → (get args.options a.name).isSome) :
    Contract b p (prog :: toks) := by
  have hparse := parse_cons (b := b) (p := p) prog toks
  have hlevel := parseAndConsume_meets hcareful hp.withHelp none rfl prog
  unfold Contract
  cases hr : p.withHelp.parseAndConsume b toks none prog with
  | error e =>
    rw [hr] at hparse hlevel
    rw [hparse]
    exact hlevel
  | ok r =>
    rw [hr] at hparse hlevel
    obtain ⟨q, args, rest⟩ := r
    obtain rfl := hrest q args rest hr
    obtain ⟨posargs, haccounts, hposargs⟩ := hlevel.accounts
    have hresult := checkResult_meets (b := b) (p := q) fun hi =>
      hlevel.help hi (helpOk_withHelp hp hi (hcareful.help hi) _)
    rw [hparse]
    refine hresult.mono ?_
    rintro args' heq ⟨rfl, hrequired⟩
    refine ⟨prog, toks, posargs, rfl, haccounts, fun a ha hreq => ?_⟩
    rcases hposargs a ha with ha | ha
    · -- a positional argument of the level that was checked
      rcases hlevel.args a ha with ha | ha
      · exact hrequired a ha hreq
      · exact ha
    · exact hsub _ (hparse.trans heq) a ha hreq

/-! ## A command line that is accounted for -/

def plainBuiltins : Builtins := ⟨fun _ => none, id, Char.isAlphanum⟩

/-- One positional argument. -/
def argParser (name : String) (required : Bool) (nargs : Nargs) : Parser Unit :=
  { (.new "run" : Parser Unit) with args := [⟨name, "", required, nargs⟩] }

lemma built_argParser (name : String) (required : Bool) (nargs : Nargs) :
    Built plainBuiltins (argParser name required nargs) := by
  have hadd : (new "run" : Parser Unit).addArg name "" required nargs =
      .ok (argParser name required nargs) := by
    simp [addArg, new, argParser]
  exact Built.addArg .new hadd

/-- A flag `-v`, and a command `run FILE`. -/
def runParser : Parser Unit :=
  { (.new "" : Parser Unit) with
    opts := [("verbose", ⟨.bool, some (.bool false), "", some "v"⟩)]
    shortOpts := [('v', "verbose")]
    cmds := [("run", "", argParser "file" true .one, ())] }

lemma built_runParser : Built plainBuiltins runParser := by
  have hflag : (new "" : Parser Unit).addBool plainBuiltins "verbose" "" (some "v") =
      .ok { runParser with cmds := [] } := rfl
  have hcmd : addCmd { runParser with cmds := [] } "run" "" () (argParser "file" true .one) =
      runParser := rfl
  exact hcmd ▸ Built.addCmd (Built.addBool .new hflag) (built_argParser "file" true .one)

/-- The options when the command is found. -/
def runArgs (verbose : Bool) : Args Unit :=
  ⟨some (argParser "file" true .one), [("verbose", .bool, .bool verbose),
    ("help", .bool, .bool false)],
    some ()⟩

theorem parse_contract_example : Contract plainBuiltins runParser ["prog", "run", "-v", "a"] := by
  have hread : runParser.withHelp.readArgs plainBuiltins ["run", "-v", "a"] false
      (runParser.withHelp.start {}) =
      .ok (⟨runArgs true, ["a"], some (argParser "file" true .one)⟩, none) := rfl
  have hread' : (argParser "file" true .one).readArgs plainBuiltins ["a"] false
      ((argParser "file" true .one).start (runArgs true)) =
      .ok (⟨runArgs true, ["a"], none⟩, none) := rfl
  have hlevel : (argParser "file" true .one).parseAndConsume plainBuiltins ["a"]
      (some (runArgs true)) "prog run" = _ := parseAndConsume_eq_finish hread' rfl
  have hparse : ∃ q args, runParser.withHelp.parseAndConsume plainBuiltins ["run", "-v", "a"] none
      "prog" = .ok (q, args, []) ∧ (get args.options "file").isSome := by
    rw [parseAndConsume_eq_bind hread rfl]
    exact ⟨_, _, congrArg (· >>= _) hlevel, rfl⟩
  obtain ⟨q, args, hparse, hfile⟩ := hparse
  refine parse_contract _ _ _ _ built_runParser ?_ ?_ ?_
  · refine .mk (forall_mem_nil _) (fun _ => ⟨forall_mem_nil _, by unfold FlagHelp; decide⟩) ?_ ?_
    · intro r h
      obtain rfl := ok.inj (hread.symm.trans h)
      exact fun h => nomatch h
    · intro st behind sub h hsub
      obtain ⟨rfl, rfl⟩ := Prod.mk.inj (ok.inj (hread.symm.trans h))
      obtain ⟨⟩ := hsub
      refine .mk (by decide) (fun _ => ⟨by decide, forall_mem_nil _⟩) ?_ ?_
      · intro r h
        obtain rfl := ok.inj (hread'.symm.trans h)
        exact fun h => nomatch h
      · intro st behind sub h hsub
        obtain ⟨rfl, rfl⟩ := Prod.mk.inj (ok.inj (hread'.symm.trans h))
        cases hsub
  · intro q' args' rest h
    exact (Prod.mk.inj (Prod.mk.inj (ok.inj (hparse.symm.trans h))).2).2.symm
  · intro args' h a ha _
    rw [parse_cons, hparse] at h
    have h : q.checkResult plainBuiltins (get runParser.opts "help").isNone args = .ok args' := h
    rw [checkResult_eq_ok h]
    -- the only positional argument is `file`
    cases ha with
    | here h hsub ha =>
      obtain ⟨rfl, rfl⟩ := Prod.mk.inj (ok.inj (hread.symm.trans h))
      obtain ⟨⟩ := hsub
      rwa [mem_singleton.mp ha]
    | deeper h hsub ha =>
      obtain ⟨rfl, rfl⟩ := Prod.mk.inj (ok.inj (hread.symm.trans h))
      obtain ⟨⟩ := hsub
      cases ha with
      | here h hsub _ | deeper h hsub _ =>
        obtain ⟨rfl, rfl⟩ := Prod.mk.inj (ok.inj (hread'.symm.trans h))
        cases hsub

/-! ## Command lines that are not accounted for -/

/-- A token that is not an option, or the separator. -/
def Word (tok : String) : Prop := tok.toList.head? ≠ some '-' ∨ tok = "--"

lemma Word.eq_nil {cs : List Char} (h : Word (String.ofList ('-' :: cs))) : cs = ['-'] := by
  rcases h with h | h
  · simp at h
  · have := congrArg String.toList h
    simpa using this

lemma Word.eq_empty {key : String} {val : Option String} (h : Word (longText key val)) :
    key = "" := by
  cases val with
  | none | some val => simpa [longText] using h.eq_nil

/-- Words are passed on, or the sub-command. -/
theorem Takes.size_of_words (h : Takes b p st toks st') (hp : get p.opts "" = none)
    (hwords : ∀ tok ∈ toks, Word tok) :
    st.size + (toks.filter (· ≠ "--")).length ≤ st'.size := by
  have hlong {key : String} {val : Option String} (hkey : (get p.opts key).isSome)
      (hmem : longText key val ∈ toks) : False := by
    rw [(hwords _ hmem).eq_empty, hp] at hkey
    cases hkey
  have hstores {key val : String} {val' : Option String} {options options' : Options}
      (hkey : Stores b p key val options options') (hmem : longText key val' ∈ toks) : False := by
    obtain ⟨spec, label, hspec, -⟩ := hkey
    exact hlong (by rw [hspec]; rfl) hmem
  cases h with
  | flag _ hspec _ => exact (hlong (by rw [hspec]; rfl) mem_cons_self).elim
  | long _ h | longValue _ h => exact (hstores h mem_cons_self).elim
  | short hc _ _ _ =>
    have := (hwords _ mem_cons_self).eq_nil
    simp [hc] at this
  | group _ hhead _ | groupValue hhead _ _ _ =>
    have := (hwords _ mem_cons_self).eq_nil
    simp [this] at hhead
  | command hnone _ =>
    refine (Nat.add_le_add_left (length_filter_le _ _) _).trans ?_
    simp [ReadState.size, hnone]
  | pass =>
    refine (Nat.add_le_add_left (length_filter_le _ _) _).trans ?_
    simp only [ReadState.size, ReadState.pass, length_append, length_singleton]
    omega

lemma Reads.size_of_words (h : Reads b p st toks st') (hp : get p.opts "" = none)
    (hwords : ∀ tok ∈ toks, Word tok) :
    st.size + (toks.filter (· ≠ "--")).length ≤ st'.size := by
  induction h with
  | nil => exact le_rfl
  | @separator s argv =>
    rw [filter_cons_of_neg (by simp)]
    have := length_filter_le (· ≠ "--") argv
    simp only [size, length_append]
    omega
  | cons htakes _ ih =>
    have h1 := htakes.size_of_words hp fun tok h => hwords tok (mem_append_left _ h)
    have h2 := ih fun tok h => hwords tok (mem_append_right _ h)
    rw [filter_append, length_append]
    omega

lemma Reads.cmdParser_eq (h : Reads b p st toks st') : st'.cmdParser = st.cmdParser ∨
      ∃ name help sub fn, get p.cmds name = some (help, sub, fn) ∧ st'.cmdParser = some sub := by
  induction h with
  | nil => exact .inl rfl
  | separator => exact .inl rfl
  | cons htakes _ ih =>
    rcases ih with heq | h
    · rw [heq]
      exact htakes.cmdParser_eq
    · exact .inr h

lemma Matches.length_le {toks left : List String} (h : Matches args options toks options' left)
    (hargs : ∀ a ∈ args, a.nargs ≠ .plus) :
    toks.length ≤ left.length + args.countP (·.nargs = .one) := by
  induction h with
  | done => exact Nat.zero_le _
  | left => exact Nat.le_add_right _ _
  | one ha _ ih =>
    have := ih fun a h => hargs a (mem_cons_of_mem _ h)
    rw [countP_cons_of_pos (by simpa using ha), length_cons]
    omega
  | more ha _ _ | last ha _ _ => exact absurd ha (hargs _ mem_cons_self)

lemma Accounts.mem_args {res : Args F} {left : List String}
    (h : Accounts b p res argv options left args) {a : ArgSpec} (ha : a ∈ p.args) : a ∈ args := by
  cases h with
  | level => exact ha
  | command => exact mem_append_left _ ha

/-- More words than arguments are not accounted for. -/
theorem not_accounts_of_words {res : Args F} (hcmds : p.cmds = []) (hp : get p.opts "" = none)
    (hwords : ∀ tok ∈ toks, Word tok) (hargs : ∀ a ∈ p.args, a.nargs ≠ .plus)
    (hlt : p.args.countP (·.nargs = .one) < (toks.filter (· ≠ "--")).length) :
    ¬ Accounts b p res toks options [] args := by
  intro h
  have hnone {st : ReadState F} (hreads : Reads b p (p.start res) toks st) :
      st.cmdParser = none := by
    rcases hreads.cmdParser_eq with heq | ⟨_, _, _, _, hcmd, _⟩
    · exact heq
    · rw [hcmds] at hcmd
      cases hcmd
  cases h with
  | level hreads _ hmatches =>
    have h1 := hreads.size_of_words hp hwords
    have h2 := hmatches.length_le hargs
    simp only [size, hnone hreads, Option.toList, length_nil] at h1 h2
    omega
  | command hreads hsub _ _ =>
    rw [hnone hreads] at hsub
    cases hsub

/-- Tokens that no argument takes are ignored. -/
theorem not_contract_of_words {p : Parser Unit} {st : ReadState Unit}
    (hread : p.withHelp.readArgs plainBuiltins toks false (p.withHelp.start {}) = .ok (st, behind))
    (hsub : st.cmdParser = none)
    (hcheck : let r := p.withHelp.finish "prog" st.res (Parser.restOf st behind) false
      (r.1.checkResult plainBuiltins (get p.opts "help").isNone r.2.1).isOk)
    (hcmds : p.withHelp.cmds = []) (hp : get p.withHelp.opts "" = none)
    (hwords : ∀ tok ∈ toks, Word tok) (hargs : ∀ a ∈ p.withHelp.args, a.nargs ≠ .plus)
    (hlt : p.withHelp.args.countP (·.nargs = .one) < (toks.filter (· ≠ "--")).length) :
    ¬ Contract plainBuiltins p ("prog" :: toks) := by
  have hparse : (p.parse plainBuiltins ("prog" :: toks)).isOk := by
    rw [parse_cons, parseAndConsume_eq_finish hread hsub]
    exact hcheck
  unfold Contract
  cases hres : p.parse plainBuiltins ("prog" :: toks) with
  | error e =>
    rw [hres] at hparse
    cases hparse
  | ok args =>
    rintro ⟨prog, toks', posargs, heq, haccounts, -⟩
    obtain ⟨rfl, rfl⟩ := List.cons.inj heq
    exact not_accounts_of_words hcmds hp hwords hargs hlt haccounts

/-- The command of the parser is reached, or a token is left. -/
theorem Accounts.file_mem
    (h : Accounts plainBuiltins runParser.withHelp {} ["run"] options [] args) :
    ⟨"file", "", true, .one⟩ ∈ args := by
  cases h with
  | level hreads hnone hmatches =>
    have hwords : ∀ tok ∈ ["run"], Word tok := by
      unfold Word
      decide
    have h1 := hreads.size_of_words rfl hwords
    have h2 := hmatches.length_le (forall_mem_nil _)
    rw [size, size, hnone] at h1
    exact absurd (h1.trans h2) (by decide)
  | @command _ _ _ st sub _ _ _ _ _ hreads hsub haccounts _ =>
    refine mem_append_right _ (haccounts.mem_args ?_)
    have hcmd : ∃ name help fn, get runParser.cmds name = some (help, sub, fn) := by
      rcases hreads.cmdParser_eq with heq | ⟨name, help, sub', fn, hcmd, heq⟩
      · cases heq.symm.trans hsub
      · obtain rfl := Option.mem_unique heq hsub
        exact ⟨name, help, fn, hcmd⟩
    obtain ⟨name, help, fn, hcmd⟩ := hcmd
    have hmem := mem_of_lookup hcmd
    obtain ⟨-, -, rfl, -⟩ := by simpa [runParser] using hmem
    exact mem_singleton_self _

lemma not_contract_run : ¬ Contract plainBuiltins runParser ["prog", "run"] := by
  have hread : runParser.withHelp.readArgs plainBuiltins ["run"] false
      (runParser.withHelp.start {}) =
      .ok (⟨runArgs false, [], some (argParser "file" true .one)⟩, none) := rfl
  have hread' : (argParser "file" true .one).readArgs plainBuiltins [] false
      ((argParser "file" true .one).start (runArgs false)) =
        .ok (⟨runArgs false, [], none⟩, none) := rfl
  have hlevel : (argParser "file" true .one).parseAndConsume plainBuiltins []
      (some (runArgs false)) "prog run" = _ := parseAndConsume_eq_finish hread' rfl
  have hparse : ∃ args, runParser.parse plainBuiltins ["prog", "run"] = .ok args ∧
      get args.options "file" = none := by
    rw [parse_cons, parseAndConsume_eq_bind hread rfl]
    exact ⟨_, congrArg (fun r => (r >>= _) >>= _) hlevel, rfl⟩
  obtain ⟨args, hparse, hnone⟩ := hparse
  unfold Contract
  rw [hparse]
  rintro ⟨prog, toks, posargs, heq, haccounts, hrequired⟩
  obtain ⟨rfl, rfl⟩ := List.cons.inj heq
  have := hrequired _ haccounts.file_mem rfl
  rw [hnone] at this
  cases this

/-- A token that is left over is ignored; so is one before `--`, and one for an argument with
`nargs` `*`. A missing argument of a sub-command is not noticed. A positional argument `help` raises
`ValueError`, and a command line without the name of the program raises `IndexError`. -/
theorem parse_diverges :
    ¬ Contract plainBuiltins (.new "" : Parser Unit) ["prog", "a"] ∧
    ¬ Contract plainBuiltins (argParser "file" false .one) ["prog", "a", "--", "b"] ∧
    ¬ Contract plainBuiltins (argParser "file" false .star) ["prog", "a"] ∧
    ¬ Contract plainBuiltins runParser ["prog", "run"] ∧
    ¬ Contract plainBuiltins (argParser "help" true .one) ["prog", "a"] ∧
    ¬ Contract plainBuiltins (.new "" : Parser Unit) [] := by
  have hword : ∀ tok ∈ ["a"], Word tok := fun tok htok => by
    rw [mem_singleton.mp htok]
    exact .inl (by decide)
  refine ⟨?_, ?_, ?_, ?_, ?_, ?_⟩
  · exact not_contract_of_words rfl rfl rfl rfl rfl hword (by decide) (by decide)
  · refine not_contract_of_words rfl rfl rfl rfl rfl ?_ (by decide) (by decide)
    unfold Word
    decide
  · exact not_contract_of_words rfl rfl rfl rfl rfl hword (by decide) (by decide)
  · exact not_contract_run
  · unfold Contract
    rw [parse_cons, parseAndConsume_eq_finish rfl rfl]
    exact fun h => nomatch h
  · exact fun h => nomatch h

end Acton.Argparse
