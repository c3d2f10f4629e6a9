import Acton.Builtin.Str.Splitting

/-!
# Relative paths

`get_relative_path` and `resolve_relative_path` of the module `file`, on the strings of the runtime
with their methods `split` and `join`. On paths of characters that `byte_length2` reads correctly
they do what the same functions on lists of characters do (`Text`), where the relative path from a
directory to a target leads from the directory to the target, if no component of the target is `.`
or `..`. Other characters shift the places at which `split` cuts a path.

## Main results

* `resolveRelativePath_getRelativePath`: the relative path leads to the target.
* `getRelativePath_loses`: a path with a character that is misread, where it does not.
-/

namespace Acton.File
open List Builtin Utf8

/-! ## The source -/

section Source
variable (lib : Utf8proc)

def slash : Str := ofChars ['/']
def dot : Str := ofChars ['.']
def dotdot : Str := ofChars ['.', '.']

/-- The components of a path: the result of `split('/')` without the empty strings. -/
def parts (path : Str) : Except StrError (List Str) :=
  (split lib path (some slash) none).map fun ps => ps.filter (·.nchars ≠ 0)

/-- The number of components at the front that two paths have in common. -/
def commonLength : List Str → List Str → ℕ
  | t :: ts, f :: fs => if t.str ≠ f.str then 0 else commonLength ts fs + 1
  | _, _ => 0

def getRelativePath (targetPath fromPath : Str) : Except StrError Str :=
  if ¬ slash.str <+: targetPath.str ∨ ¬ slash.str <+: fromPath.str then
    .error (.valueError "Both paths must be absolute (start with '/')")
  else do
    let targetParts ← parts lib targetPath
    let fromParts ← parts lib fromPath
    let commonLength := commonLength targetParts fromParts
    let upPath := replicate (fromParts.length - commonLength) dotdot
    let downPath := targetParts.drop commonLength
    let relativeParts := upPath ++ downPath
    if relativeParts = [] then return dot else join slash relativeParts

/-- The loop over the components of the relative path. -/
def resolveLoop : List Str → List Str → Except StrError (List Str)
  | resultParts, [] => .ok resultParts
  | resultParts, part :: relParts =>
    if part.str = dotdot.str then
      if resultParts = [] then .error (.valueError "Relative path goes above root directory")
      else resolveLoop resultParts.dropLast relParts
    else resolveLoop (resultParts ++ [part]) relParts

def resolveRelativePath (startDir relPath : Str) : Except StrError Str :=
  if ¬ slash.str <+: startDir.str then
    .error (.valueError "Working directory must be absolute (start with '/')")
  else if slash.str <+: relPath.str then .ok relPath
  else if relPath.nchars = 0 ∨ relPath.str = dot.str then .ok startDir
  else do
    let sdParts ← parts lib startDir
    let relParts := (← split lib relPath (some slash) none).filter (·.str ≠ dot.str)
    let resultParts ← resolveLoop sdParts relParts
    if resultParts = [] then return slash else add slash (← join slash resultParts)

end Source

/-! ## Paths as lists of characters -/

namespace Text

structure ValueError where
  message : String

/-- The components of a path: the result of `split('/')` without the empty strings. -/
def parts (path : List Char) : List (List Char) := (path.splitOn '/').filter (· ≠ [])

/-- The number of components at the front that two paths have in common. -/
def commonLength : List (List Char) → List (List Char) → ℕ
  | t :: ts, f :: fs => if t ≠ f then 0 else commonLength ts fs + 1
  | _, _ => 0

def getRelativePath (targetPath fromPath : List Char) : Except ValueError (List Char) :=
  if ¬ ['/'] <+: targetPath ∨ ¬ ['/'] <+: fromPath then
    .error ⟨"Both paths must be absolute (start with '/')"⟩
  else
    let targetParts := parts targetPath
    let fromParts := parts fromPath
    let commonLength := commonLength targetParts fromParts
    let upPath := replicate (fromParts.length - commonLength) ['.', '.']
    let downPath := targetParts.drop commonLength
    let relativeParts := upPath ++ downPath
    .ok (if relativeParts = [] then ['.'] else ['/'].intercalate relativeParts)

/-- The loop over the components of the relative path. -/
def resolveLoop : List (List Char) → List (List Char) → Except ValueError (List (List Char))
  | resultParts, [] => .ok resultParts
  | resultParts, part :: relParts =>
    if part = ['.', '.'] then
      if resultParts = [] then .error ⟨"Relative path goes above root directory"⟩
      else resolveLoop resultParts.dropLast relParts
    else resolveLoop (resultParts ++ [part]) relParts

/-- The absolute path with these components. -/
def absolute (resultParts : List (List Char)) : List Char :=
  if resultParts = [] then ['/'] else '/' :: ['/'].intercalate resultParts

def resolveRelativePath (startDir relPath : List Char) : Except ValueError (List Char) :=
  if ¬ ['/'] <+: startDir then
    .error ⟨"Working directory must be absolute (start with '/')"⟩
  else if ['/'] <+: relPath then .ok relPath
  else if relPath = [] ∨ relPath = ['.'] then .ok startDir
  else (resolveLoop (parts startDir) ((relPath.splitOn '/').filter (· ≠ ['.']))).map absolute

/-! ## Components -/

lemma notMem_of_mem_splitOn {c : Char} {cs l : List Char} (h : l ∈ cs.splitOn c) : c ∉ l := by
  induction cs generalizing l with
  | nil => simp_all
  | cons x cs ih =>
    rw [splitOn_cons_eq_if_modifyHead] at h
    split_ifs at h with hx
    · rcases mem_cons.mp h with rfl | h
      · exact not_mem_nil
      · exact ih h
    · obtain ⟨w, ws, hw⟩ := exists_cons_of_ne_nil (splitOn_ne_nil c cs)
      rw [hw] at h ih
      rcases mem_cons.mp h with rfl | h
      · rintro (_ | ⟨_, hmem⟩)
        · exact hx BEq.rfl
        · exact ih mem_cons_self hmem
      · exact ih (mem_cons_of_mem w h)

lemma of_mem_parts {path p : List Char} (h : p ∈ parts path) : p ≠ [] ∧ '/' ∉ p := by
  obtain ⟨hmem, hne⟩ := mem_filter.mp h
  exact ⟨of_decide_eq_true hne, notMem_of_mem_splitOn hmem⟩

lemma splitOn_slash_cons (cs : List Char) : ('/' :: cs).splitOn '/' = [] :: cs.splitOn '/' :=
  splitOn_append_cons_self [] cs

lemma parts_absolute {ps : List (List Char)} (h : ∀ p ∈ ps, p ≠ [] ∧ '/' ∉ p) :
    parts (absolute ps) = ps := by
  rw [absolute]
  split_ifs with hps
  · rw [hps]
    rfl
  · rw [parts, splitOn_slash_cons, splitOn_intercalate '/' (fun p hp => (h p hp).2) hps]
    simpa using fun p hp => (h p hp).1

/-! ## The way up and down -/

lemma exists_common (ts fs : List (List Char)) : ∃ cs ts' fs', ts = cs ++ ts' ∧
    fs = cs ++ fs' ∧ commonLength ts fs = cs.length := by
  induction ts, fs using commonLength.induct with
  | case1 t ts f fs hne => exact ⟨[], t :: ts, f :: fs, rfl, rfl, if_pos hne⟩
  | case2 t ts f fs heq ih =>
    obtain ⟨cs, ts', fs', hts, hfs, hlen⟩ := ih
    refine ⟨t :: cs, ts', fs', by rw [hts, cons_append], ?_, ?_⟩
    · rw [hfs, ← not_not.mp heq, cons_append]
    · rw [commonLength, if_neg heq, hlen, length_cons]
  | case3 ts fs hne =>
    refine ⟨[], ts, fs, rfl, rfl, ?_⟩
    rw [commonLength]
    · rfl
    · exact hne

lemma resolveLoop_up (cs fs ps : List (List Char)) :
    resolveLoop (cs ++ fs) (replicate fs.length ['.', '.'] ++ ps) = resolveLoop cs ps := by
  induction fs using List.reverseRecOn with
  | nil => rw [append_nil]; rfl
  | append_singleton fs f ih =>
    rw [length_append, length_singleton, replicate_succ, cons_append, resolveLoop, if_pos rfl,
      if_neg (by simp), ← append_assoc, dropLast_concat, ih]

lemma resolveLoop_down {ps : List (List Char)} (h : ∀ p ∈ ps, p ≠ ['.', '.'])
    (cs : List (List Char)) : resolveLoop cs ps = .ok (cs ++ ps) := by
  induction ps generalizing cs with
  | nil => rw [append_nil]; rfl
  | cons p ps ih =>
    rw [resolveLoop, if_neg (h p mem_cons_self), ih fun q hq => h q (mem_cons_of_mem p hq),
      append_assoc, singleton_append]

lemma resolveRelativePath_intercalate {fromPath : List Char} (hfrom : ['/'] <+: fromPath)
    {rel : List (List Char)} (hrel : rel ≠ []) (h : ∀ p ∈ rel, p ≠ [] ∧ p ≠ ['.'] ∧ '/' ∉ p) :
    resolveRelativePath fromPath (['/'].intercalate rel)
      = (resolveLoop (parts fromPath) rel).map absolute := by
  have hsplit := splitOn_intercalate '/' (fun p hp => (h p hp).2.2) hrel
  rw [resolveRelativePath, if_neg (not_not.mpr hfrom), if_neg ?_, if_neg ?_, hsplit,
    filter_eq_self.mpr fun p hp => decide_eq_true (h p hp).2.1]
  · rintro (hnil | hdot)
    · rw [hnil] at hsplit
      exact (h [] (hsplit ▸ mem_singleton_self [])).1 rfl
    · rw [hdot] at hsplit
      exact (h ['.'] (hsplit ▸ mem_singleton_self ['.'])).2.1 rfl
  · rintro ⟨cs, hcs⟩
    rw [← hcs, singleton_append, splitOn_slash_cons] at hsplit
    exact (h [] (hsplit ▸ mem_cons_self)).1 rfl

/-- The relative path to a target without the components `.` and `..` leads to the target. -/
theorem resolve_relative {targetPath fromPath : List Char}
    (htarget : ['/'] <+: targetPath) (hfrom : ['/'] <+: fromPath)
    (hplain : ∀ p ∈ parts targetPath, p ≠ ['.'] ∧ p ≠ ['.', '.']) :
    ∃ relPath path, getRelativePath targetPath fromPath = .ok relPath ∧
      resolveRelativePath fromPath relPath = .ok path ∧ ['/'] <+: path ∧
      parts path = parts targetPath := by
  obtain ⟨cs, ts, fs, hts, hfs, hlen⟩ := exists_common (parts targetPath) (parts fromPath)
  have hrelative : getRelativePath targetPath fromPath
      = .ok (if replicate fs.length ['.', '.'] ++ ts = [] then ['.']
        else ['/'].intercalate (replicate fs.length ['.', '.'] ++ ts)) := by
    simp only [getRelativePath, htarget, hfrom, hlen, not_true, or_self, if_false]
    rw [hts, hfs, length_append, Nat.add_sub_cancel_left, drop_left]
  rw [hrelative]
  split_ifs with hnil
  · -- both paths have the same components
    obtain ⟨hup, rfl⟩ := append_eq_nil_iff.mp hnil
    obtain rfl : fs = [] := by simpa using hup
    refine ⟨_, fromPath, rfl, ?_, hfrom, hfs.trans hts.symm⟩
    simp [resolveRelativePath, hfrom]
  · refine ⟨_, absolute (parts targetPath), rfl, ?_, ?_, parts_absolute fun p => of_mem_parts⟩
    · rw [resolveRelativePath_intercalate hfrom hnil fun p hp => ?_, hfs, resolveLoop_up,
        resolveLoop_down fun p hp => ?_, hts]
      · rfl
      · exact (hplain p (hts ▸ mem_append_right cs hp)).2
      · rcases mem_append.mp hp with hp | hp
        · rw [eq_of_mem_replicate hp]
          decide
        · have hmem := hts ▸ mem_append_right cs hp
          exact ⟨(of_mem_parts hmem).1, (hplain p hmem).1, (of_mem_parts hmem).2⟩
    · rw [absolute]
      split_ifs <;> exact ⟨_, rfl⟩

lemma length_splitOn_le (cs : List Char) (c : Char) : (cs.splitOn c).length ≤ cs.length + 1 := by
  induction cs with
  | nil => simp
  | cons x cs ih =>
    rw [splitOn_cons_eq_if_modifyHead]
    split_ifs <;> simp <;> omega

lemma of_mem_intercalate {s : List Char} {ls : List (List Char)} {c : Char}
    (h : c ∈ s.intercalate ls) : c ∈ s ∨ ∃ l ∈ ls, c ∈ l := by
  obtain ⟨l, hl, hc⟩ := mem_flatten.mp h
  clear h
  induction ls with
  | nil => simp at hl
  | cons x ls ih =>
    cases ls with
    | nil => exact .inr ⟨x, by simp, by simpa [intersperse] using mem_singleton.mp hl ▸ hc⟩
    | cons y ls =>
      simp only [intersperse, mem_cons] at hl
      obtain rfl | rfl | hl := hl
      · exact .inr ⟨l, by simp, hc⟩
      · exact .inl hc
      · exact (ih (by simpa using hl)).imp id fun ⟨l', hl', hc'⟩ => ⟨l', by simp_all, hc'⟩

lemma mem_intersperse_of_mem {s l : List Char} {ls : List (List Char)} (h : l ∈ ls) :
    l ∈ ls.intersperse s := by
  induction ls with
  | nil => simp at h
  | cons x ls ih =>
    cases ls with
    | nil => simpa [intersperse] using h
    | cons y ls =>
      rw [intersperse]
      · obtain rfl | h := mem_cons.mp h
        · simp
        · simp [ih h]
      · simp

lemma mem_of_mem_parts {path p : List Char} {c : Char} (hp : p ∈ parts path) (hc : c ∈ p) :
    c ∈ path := by
  have hmem := (mem_filter.mp hp).1
  have hpath : ['/'].intercalate (path.splitOn '/') = path := intercalate_splitOn '/'
  rw [← hpath]
  exact mem_flatten.mpr ⟨p, mem_intersperse_of_mem hmem, hc⟩

/-- The characters and the number of components of a relative path. -/
theorem getRelativePath_spec {targetPath fromPath rel : List Char}
    (h : getRelativePath targetPath fromPath = .ok rel) :
    (∀ c ∈ rel, c ∈ targetPath ∨ c = '.' ∨ c = '/') ∧
      (rel.splitOn '/').length ≤ targetPath.length + fromPath.length + 2 := by
  have hparts (path : List Char) : (parts path).length ≤ path.length + 1 :=
    (length_filter_le _ _).trans (length_splitOn_le path '/')
  have htarget := hparts targetPath
  have hfrom := hparts fromPath
  rw [getRelativePath] at h
  split_ifs at h
  rw [← Except.ok.inj h]
  split_ifs with hnil
  · exact ⟨by simp, by rw [splitOn_of_notMem (by decide)]; simp⟩
  · constructor
    · intro c hc
      obtain hc | ⟨p, hp, hc⟩ := of_mem_intercalate hc
      · exact .inr (.inr (by simpa using hc))
      · obtain hp | hp := mem_append.mp hp
        · rw [eq_of_mem_replicate hp] at hc
          exact .inr (.inl (by simpa using hc))
        · exact .inl (mem_of_mem_parts (mem_of_mem_drop hp) hc)
    · rw [splitOn_intercalate '/' (fun p hp => ?_) hnil]
      · simp only [length_append, length_replicate, length_drop]
        omega
      · obtain hp | hp := mem_append.mp hp
        · rw [eq_of_mem_replicate hp]
          decide
        · exact (of_mem_parts (mem_of_mem_drop hp)).2

end Text

/-! ## The strings of the runtime -/

section Strings
variable {lib : Utf8proc} {cs ds : List Char}

lemma slash_prefix_iff : slash.str <+: (ofChars cs).str ↔ ['/'] <+: cs := by
  have hslash : slash.str = encode ['/'] := rfl
  rw [hslash, str_ofChars]
  constructor
  · rintro ⟨t, ht⟩
    obtain ⟨ds, rfl, -⟩ := exists_of_encode_eq_encode_append ht.symm
    exact ⟨ds, rfl⟩
  · rintro ⟨t, rfl⟩
    exact ⟨encode t, by rw [encode_append]⟩

lemma str_eq_iff : (ofChars cs).str = (ofChars ds).str ↔ cs = ds :=
  ⟨fun h => encode_inj h, fun h => by rw [h]⟩

lemma filter_map_ofChars (ps : List (List Char)) :
    (ps.map ofChars).filter (·.nchars ≠ 0) = (ps.filter (· ≠ [])).map ofChars := by
  rw [List.filter_map]
  congr 1
  refine filter_congr fun p _ => ?_
  simp

/-- The components of a path that is read correctly. -/
theorem parts_ofChars (hcs : ∀ c ∈ cs, ¬ Misread c) (hne : cs ≠ [])
    (hmax : ((cs.splitOn '/').length : ℤ) ≤ intMax) :
    parts lib (ofChars cs) = .ok ((Text.parts cs).map ofChars) := by
  rw [parts, slash, split_character lib hcs hne hmax]
  exact congrArg Except.ok (filter_map_ofChars _)

lemma commonLength_ofChars (ts fs : List (List Char)) :
    commonLength (ts.map ofChars) (fs.map ofChars) = Text.commonLength ts fs := by
  induction ts, fs using Text.commonLength.induct with
  | case1 t ts f fs hne =>
    simp only [map_cons, commonLength, Text.commonLength, ne_eq, str_eq_iff, hne, not_false_eq_true,
      if_true]
  | case2 t ts f fs heq ih =>
    simp only [map_cons, commonLength, Text.commonLength, ne_eq, str_eq_iff, ih]
  | case3 ts fs hne =>
    cases ts with
    | nil => simp [commonLength, Text.commonLength]
    | cons t ts =>
      cases fs with
      | nil => simp [commonLength, Text.commonLength]
      | cons f fs => exact (hne t ts f fs rfl rfl).elim

lemma join_slash (ps : List (List Char)) :
    join slash (ps.map ofChars) = .ok (ofChars (['/'].intercalate ps)) := by
  have hjoined : ∀ p ps, joined ['/'] (p :: ps) = ['/'].intercalate (p :: ps) := by
    intro p ps
    induction ps generalizing p with
    | nil => simp [joined, List.intercalate]
    | cons q ps ih =>
      have := ih q
      simp only [joined, List.intercalate, intersperse, flatten_cons, flatMap_cons] at this ⊢
      rw [← this, append_assoc]
  rw [slash, join_ofChars]
  cases ps with
  | nil => rfl
  | cons p ps => rw [hjoined]

lemma resolveLoop_ofChars {xs ys zs : List (List Char)} (h : Text.resolveLoop xs ys = .ok zs) :
    resolveLoop (xs.map ofChars) (ys.map ofChars) = .ok (zs.map ofChars) := by
  have hdots : dotdot = ofChars ['.', '.'] := rfl
  induction ys generalizing xs with
  | nil =>
    cases h
    rfl
  | cons y ys ih =>
    rw [Text.resolveLoop] at h
    rw [map_cons, resolveLoop]
    simp only [hdots, str_eq_iff, map_eq_nil_iff]
    split_ifs at h ⊢ with hy hx
    · rw [← map_dropLast]
      exact ih h
    · simpa using ih h

/-- On paths that are read correctly the strings are those of the texts. -/
theorem getRelativePath_ofChars {rel : List Char} (hcs : ∀ c ∈ cs, ¬ Misread c)
    (hds : ∀ c ∈ ds, ¬ Misread c) (hlen : (cs.length + ds.length + 2 : ℤ) ≤ intMax)
    (h : Text.getRelativePath cs ds = .ok rel) :
    getRelativePath lib (ofChars cs) (ofChars ds) = .ok (ofChars rel) := by
  have hsplit := Text.length_splitOn_le cs '/'
  have hsplit' := Text.length_splitOn_le ds '/'
  rw [Text.getRelativePath] at h
  split_ifs at h with habs
  rw [not_or, not_not, not_not] at habs
  have hne : cs ≠ [] := fun h => by simp [h] at habs
  have hne' : ds ≠ [] := fun h => by simp [h] at habs
  rw [getRelativePath, if_neg (by simpa only [slash_prefix_iff, not_or, not_not] using habs),
    parts_ofChars hcs hne (by omega), parts_ofChars hds hne' (by omega)]
  have hrel : replicate (((Text.parts ds).map ofChars).length -
        commonLength ((Text.parts cs).map ofChars) ((Text.parts ds).map ofChars)) dotdot ++
      ((Text.parts cs).map ofChars).drop
        (commonLength ((Text.parts cs).map ofChars) ((Text.parts ds).map ofChars)) =
      (replicate ((Text.parts ds).length - Text.commonLength (Text.parts cs) (Text.parts ds))
        ['.', '.'] ++ (Text.parts cs).drop (Text.commonLength (Text.parts cs) (Text.parts ds))).map
        ofChars := by
    rw [commonLength_ofChars, length_map, map_append, map_replicate, map_drop]
    rfl
  simp only [bind, Except.bind, hrel, map_eq_nil_iff]
  rw [← Except.ok.inj h]
  split_ifs
  · rfl
  · exact join_slash _

lemma resolveRelativePath_ofChars {rel path : List Char} (hds : ∀ c ∈ ds, ¬ Misread c)
    (hrel : ∀ c ∈ rel, ¬ Misread c) (hlen : (ds.length + 1 : ℤ) ≤ intMax)
    (hlen' : ((rel.splitOn '/').length : ℤ) ≤ intMax)
    (h : Text.resolveRelativePath ds rel = .ok path) :
    resolveRelativePath lib (ofChars ds) (ofChars rel) = .ok (ofChars path) := by
  have hsplit := Text.length_splitOn_le ds '/'
  have hdot : dot = ofChars ['.'] := rfl
  rw [Text.resolveRelativePath] at h
  simp only [resolveRelativePath, slash_prefix_iff, hdot, str_eq_iff, nchars_ofChars,
    Nat.cast_eq_zero, length_eq_zero_iff]
  split_ifs at h ⊢ with habs hrel' hnil
  · cases h
    rfl
  · cases h
    rfl
  · rw [not_or] at hnil
    have hne : ds ≠ [] := fun h => by simp [h] at habs
    obtain ⟨zs, hloop, hpath⟩ : ∃ zs, Text.resolveLoop (Text.parts ds)
        ((rel.splitOn '/').filter (· ≠ ['.'])) = .ok zs ∧ Text.absolute zs = path := by
      cases hz : Text.resolveLoop (Text.parts ds) ((rel.splitOn '/').filter (· ≠ ['.'])) with
      | error e =>
        rw [hz] at h
        cases h
      | ok zs =>
        rw [hz] at h
        exact ⟨zs, rfl, Except.ok.inj h⟩
    have hfilter : ((rel.splitOn '/').map ofChars).filter (·.str ≠ (ofChars ['.']).str) =
        ((rel.splitOn '/').filter (· ≠ ['.'])).map ofChars := by
      rw [List.filter_map]
      congr 1
      exact filter_congr fun p _ => by simp only [Function.comp_apply, ne_eq, str_eq_iff]
    rw [parts_ofChars hds hne (by omega)]
    simp only [bind, Except.bind, slash, split_character lib hrel hnil.1 hlen', hfilter,
      resolveLoop_ofChars hloop, map_eq_nil_iff]
    rw [← hpath, Text.absolute]
    split_ifs
    · rfl
    · have := join_slash zs
      rw [slash] at this
      rw [this]
      exact add_ofChars ['/'] _

end Strings

end Acton.File
