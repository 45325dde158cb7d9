import Mathlib.Data.List.Basic

/-!
# Paths as strings (`path/filepath` on Unix)

`clean` reads a path into the names it is made of (`parse`) and writes these down (`Lexical.text`).
A `Lexical` path has no empty name, no `.` and no `..` but in front, so it is read back as it was
(`parse_text`), and a plain name put behind it stays where it is: a join of plain names to a
directory is a path below that directory (`join_below`).
-/

namespace FilePath

def slash : UInt8 := 47
def dot : UInt8 := 46

/-- A file name that is no dot segment. -/
structure Plain (name : List UInt8) : Prop where
  ne_nil : name ≠ []
  ne_dot : name ≠ [dot]
  ne_dotdot : name ≠ [dot, dot]
  no_slash : slash ∉ name

/-- The names of a path without empty names, `.` and inner `..`, the last name first. -/
inductive Resolved (rooted : Bool) : List (List UInt8) → Prop
  | nil : Resolved rooted []
  | name {names : List (List UInt8)} {name : List UInt8} :
      Plain name → Resolved rooted names → Resolved rooted (name :: names)
  | up {names : List (List UInt8)} :
      rooted = false → (∀ name ∈ names, name = [dot, dot]) → Resolved rooted names →
      Resolved rooted ([dot, dot] :: names)

/-- A path as `Clean` leaves it. -/
@[ext] structure Lexical where
  rooted : Bool
  /-- the last one first -/
  names : List (List UInt8)
  resolved : Resolved rooted names

/-- One more name after those that `Clean` keeps. -/
def push (rooted : Bool) (names : List (List UInt8)) (name : List UInt8) : List (List UInt8) :=
  if name = [] ∨ name = [dot] then names
  else if name = [dot, dot] then
    match names with
    | [] => if rooted then [] else [[dot, dot]]
    | last :: before => if last = [dot, dot] then [dot, dot] :: last :: before else before
  else name :: names

def isRooted (path : List UInt8) : Bool := path.head? == some slash

/-! ## Names -/

theorem not_mem_splitOn {sep : UInt8} {path name : List UInt8} (h : name ∈ path.splitOn sep) :
    sep ∉ name := by
  induction path generalizing name with
  | nil => simp_all
  | cons b path ih =>
    rw [List.splitOn_cons_eq_if_modifyHead] at h
    split at h
    · rcases List.mem_cons.1 h with rfl | h
      · exact List.not_mem_nil
      · exact ih h
    · next hb =>
      obtain ⟨first, rest, hsplit⟩ := List.exists_cons_of_ne_nil (List.splitOn_ne_nil sep path)
      rw [hsplit, List.modifyHead_cons] at h
      rw [hsplit] at ih
      rcases List.mem_cons.1 h with rfl | h
      · refine fun hmem => (List.mem_cons.1 hmem).elim (fun he => hb ?_) (ih List.mem_cons_self)
        rw [he, beq_self_eq_true]
      · exact ih (List.mem_cons_of_mem _ h)

theorem Resolved.push {rooted : Bool} {names : List (List UInt8)} {name : List UInt8}
    (h : Resolved rooted names) (hname : slash ∉ name) :
    Resolved rooted (push rooted names name) := by
  unfold FilePath.push
  split
  · exact h
  · next hempty =>
    obtain ⟨hnil, hdot⟩ := not_or.1 hempty
    split
    · cases h with
      | nil =>
        cases rooted
        · exact .up rfl (fun _ h => absurd h List.not_mem_nil) .nil
        · exact .nil
      | name hlast hbefore => simpa only [if_neg hlast.ne_dotdot] using hbefore
      | up hrooted hall hbefore =>
        exact .up hrooted (List.forall_mem_cons.2 ⟨rfl, hall⟩) (.up hrooted hall hbefore)
    · next hdotdot => exact .name ⟨hnil, hdot, hdotdot, hname⟩ h

/-- The names of a path, resolved. -/
def resolve (rooted : Bool) (names : List (List UInt8)) : List (List UInt8) :=
  names.foldl (push rooted) []

theorem Resolved.foldl {rooted : Bool} {names more : List (List UInt8)}
    (h : Resolved rooted names) (hmore : ∀ name ∈ more, slash ∉ name) :
    Resolved rooted (more.foldl (FilePath.push rooted) names) := by
  induction more generalizing names with
  | nil => exact h
  | cons name more ih =>
    obtain ⟨hname, hmore⟩ := List.forall_mem_cons.1 hmore
    exact ih (h.push hname) hmore

/-- What `Clean` reads from a path. -/
def parse (path : List UInt8) : Lexical where
  rooted := isRooted path
  names := resolve (isRooted path) (path.splitOn slash)
  resolved := Resolved.nil.foldl fun _ => not_mem_splitOn

/-- A path below a root or the working directory. -/
def joined (names : List (List UInt8)) : List UInt8 := [slash].intercalate names

def Lexical.text (p : Lexical) : List UInt8 :=
  if p.rooted then slash :: joined p.names.reverse
  else if p.names = [] then [dot]
  else joined p.names.reverse

/-- `filepath.Clean`. -/
def clean (path : List UInt8) : List UInt8 := (parse path).text

/-- `filepath.Join`. -/
def join (elem : List (List UInt8)) : List UInt8 :=
  match elem.dropWhile (· = []) with
  | [] => []
  | elem => clean (joined elem)

/-- The search of `filepath.Ext`, from the end of the path. -/
def extFrom : List UInt8 → (seen : List UInt8) → List UInt8
  | [], _ => []
  | b :: before, seen =>
    if b = slash then [] else if b = dot then b :: seen else extFrom before (b :: seen)

/-- `filepath.Ext`. -/
def ext (path : List UInt8) : List UInt8 := extFrom path.reverse []

/-! ## Clean paths are read back -/

/-- No name of a clean path is empty or `.`. -/
theorem Resolved.mem {rooted : Bool} {names : List (List UInt8)} (h : Resolved rooted names)
    {name : List UInt8} (hname : name ∈ names) :
    name ≠ [] ∧ name ≠ [dot] ∧ slash ∉ name := by
  induction h with
  | nil => cases hname
  | name hplain _ ih =>
    rcases List.mem_cons.1 hname with rfl | hname
    · exact ⟨hplain.ne_nil, hplain.ne_dot, hplain.no_slash⟩
    · exact ih hname
  | up _ _ _ ih =>
    rcases List.mem_cons.1 hname with rfl | hname
    · exact ⟨by decide, by decide, by decide⟩
    · exact ih hname

theorem push_plain {rooted : Bool} {names : List (List UInt8)} {name : List UInt8}
    (h : Plain name) : push rooted names name = name :: names := by
  unfold push
  rw [if_neg (not_or.2 ⟨h.ne_nil, h.ne_dot⟩), if_neg h.ne_dotdot]

theorem push_up {names : List (List UInt8)} (h : ∀ name ∈ names, name = [dot, dot]) :
    push false names [dot, dot] = [dot, dot] :: names := by
  cases names with
  | nil => rfl
  | cons last before =>
    obtain rfl := h last List.mem_cons_self
    rfl

theorem foldl_push_plain {rooted : Bool} (names : List (List UInt8)) {more : List (List UInt8)}
    (h : ∀ name ∈ more, Plain name) : more.foldl (push rooted) names = more.reverse ++ names := by
  induction more generalizing names with
  | nil => rfl
  | cons name more ih =>
    obtain ⟨hname, hmore⟩ := List.forall_mem_cons.1 h
    rw [List.foldl_cons, push_plain hname, ih _ hmore, List.reverse_cons, List.append_assoc,
      List.singleton_append]

theorem Resolved.resolve_reverse {rooted : Bool} {names : List (List UInt8)}
    (h : Resolved rooted names) : resolve rooted names.reverse = names := by
  induction h with
  | nil => rfl
  | name hplain _ ih =>
    rw [List.reverse_cons, resolve, List.foldl_concat, ← resolve, ih, push_plain hplain]
  | up hrooted hall _ ih =>
    rw [List.reverse_cons, resolve, List.foldl_concat, ← resolve, ih, hrooted]
    exact push_up hall

theorem splitOn_joined {names : List (List UInt8)} (hne : names ≠ [])
    (h : ∀ name ∈ names, slash ∉ name) : (joined names).splitOn slash = names :=
  List.splitOn_intercalate slash h hne

theorem Lexical.splitOn_names (p : Lexical) (hne : p.names ≠ []) :
    (joined p.names.reverse).splitOn slash = p.names.reverse :=
  splitOn_joined (by simpa using hne) fun _ hn => (p.resolved.mem (List.mem_reverse.1 hn)).2.2

theorem Lexical.not_rooted (p : Lexical) (hne : p.names ≠ []) :
    isRooted (joined p.names.reverse) = false := by
  cases hpath : joined p.names.reverse with
  | nil => rfl
  | cons b path =>
    have hb : b ≠ slash := by
      rintro rfl
      have hsplit := p.splitOn_names hne
      rw [hpath, List.splitOn_cons_eq_if_modifyHead, if_pos (beq_self_eq_true slash)] at hsplit
      have hmem : [] ∈ p.names.reverse := hsplit ▸ List.mem_cons_self
      exact (p.resolved.mem (List.mem_reverse.1 hmem)).1 rfl
    simpa [isRooted] using hb

/-- **A clean path is read back.** -/
theorem parse_text (p : Lexical) : parse p.text = p := by
  have hback := p.resolved.resolve_reverse
  have hsplit := p.splitOn_names
  unfold Lexical.text
  cases hrooted : p.rooted with
  | true =>
    rw [hrooted] at hback
    have hskip : (slash :: joined p.names.reverse).splitOn slash =
        [] :: (joined p.names.reverse).splitOn slash := List.splitOn_append_cons_self [] _
    refine Lexical.ext hrooted.symm ?_
    change resolve true ((slash :: joined p.names.reverse).splitOn slash) = p.names
    rw [hskip]
    by_cases hne : p.names = []
    · rw [hne]
      rfl
    · rw [hsplit hne]
      exact hback
  | false =>
    rw [hrooted] at hback
    by_cases hne : p.names = []
    · rw [hne]
      exact Lexical.ext hrooted.symm hne.symm
    · have hroot := p.not_rooted hne
      simp only [Bool.false_eq_true, if_false, if_neg hne]
      refine Lexical.ext (hroot.trans hrooted.symm) ?_
      change resolve (isRooted (joined p.names.reverse)) _ = p.names
      rw [hroot, hsplit hne, hback]

/-! ## Paths below a directory -/

/-- The path with plain names behind it. -/
def Lexical.below (p : Lexical) (names : List (List UInt8)) (h : ∀ name ∈ names, Plain name) :
    Lexical where
  rooted := p.rooted
  names := names.reverse ++ p.names
  resolved := by
    have hall := p.resolved.foldl fun name hname => (h name hname).no_slash
    rwa [foldl_push_plain p.names h] at hall

/-- The path of plain names below a clean directory. -/
def under (dir : List UInt8) (names : List (List UInt8)) : List UInt8 :=
  if dir = [dot] then joined names
  else if dir = [slash] then slash :: joined names
  else dir ++ slash :: joined names

theorem joined_append {a b : List (List UInt8)} (ha : a ≠ []) (hb : b ≠ []) :
    joined (a ++ b) = joined a ++ slash :: joined b := by
  induction a with
  | nil => exact absurd rfl ha
  | cons name a ih =>
    cases a with
    | nil => simp [joined, List.intercalate_cons_of_ne_nil hb]
    | cons next a =>
      have hrest : joined (next :: a ++ b) = _ := ih (List.cons_ne_nil _ _)
      unfold joined at hrest ⊢
      rw [List.cons_append, List.cons_append, List.intercalate_cons_cons, ← List.cons_append,
        hrest, List.intercalate_cons_cons, List.append_assoc (name ++ [slash])]

theorem Lexical.text_ne (p : Lexical) (hne : p.names ≠ []) :
    p.text ≠ [dot] ∧ p.text ≠ [slash] := by
  have hsplit := p.splitOn_names hne
  have hroot := p.not_rooted hne
  have hmem : ∀ {name}, (joined p.names.reverse).splitOn slash = [name] → name ∈ p.names := by
    intro name h
    rw [← List.mem_reverse, ← hsplit, h]
    exact List.mem_singleton_self name
  unfold Lexical.text
  cases p.rooted with
  | true =>
    refine ⟨fun h => absurd (List.cons.inj h).1 (by decide), fun h => ?_⟩
    have hnil : joined p.names.reverse = [] := (List.cons.inj h).2
    exact (p.resolved.mem (hmem (by rw [hnil]; rfl))).1 rfl
  | false =>
    simp only [Bool.false_eq_true, if_false, if_neg hne]
    refine ⟨fun h => ?_, fun h => ?_⟩
    · exact (p.resolved.mem (hmem (by rw [h]; rfl))).2.1 rfl
    · rw [h] at hroot
      cases hroot

/-- **A plain name stays where it is put.** -/
theorem Lexical.text_below (p : Lexical) {names : List (List UInt8)}
    (h : ∀ name ∈ names, Plain name) (hne : names ≠ []) :
    (p.below names h).text = under p.text names := by
  have hbelow : (p.below names h).names ≠ [] := by simp [Lexical.below, hne]
  have hnames : (p.below names h).names.reverse = p.names.reverse ++ names := by
    rw [Lexical.below, List.reverse_append, List.reverse_reverse]
  by_cases hp : p.names = []
  · rw [hp, List.reverse_nil, List.nil_append] at hnames
    unfold Lexical.text
    rw [hnames, if_neg hbelow, hp]
    cases hrooted : p.rooted <;> simp [Lexical.below, hrooted] <;> rfl
  · obtain ⟨hdot, hslash⟩ := p.text_ne hp
    rw [under, if_neg hdot, if_neg hslash]
    unfold Lexical.text
    rw [hnames, if_neg hbelow, if_neg hp, joined_append (by simpa using hp) hne]
    cases hrooted : p.rooted <;> simp [Lexical.below, hrooted]

theorem Lexical.below_below (p : Lexical) {a b : List (List UInt8)} (ha : ∀ name ∈ a, Plain name)
    (hb : ∀ name ∈ b, Plain name) :
    (p.below a ha).below b hb =
      p.below (a ++ b) fun name h => (List.mem_append.1 h).elim (ha name) (hb name) := by
  refine Lexical.ext rfl ?_
  change b.reverse ++ (a.reverse ++ p.names) = (a ++ b).reverse ++ p.names
  rw [List.reverse_append, List.append_assoc]

section

variable {names : List (List UInt8)} (h : ∀ name ∈ names, Plain name) (hne : names ≠ [])
include h hne

/-- What `Clean` reads from a path below `root`. -/
theorem parse_below {root : List UInt8} (hroot : root ≠ []) :
    parse (root ++ slash :: joined names) = (parse root).below names h := by
  have hrooted : isRooted (root ++ slash :: joined names) = isRooted root := by
    rw [isRooted, List.head?_append_of_ne_nil _ hroot, isRooted]
  refine Lexical.ext hrooted ?_
  change resolve _ _ = names.reverse ++ resolve _ _
  rw [hrooted, List.splitOn_append_cons_self,
    splitOn_joined hne fun name hn => (h name hn).no_slash, resolve, List.foldl_append,
    foldl_push_plain _ h, ← resolve]

theorem clean_joined : clean (joined names) = joined names := by
  have htext : ((parse []).below names h).text = joined names :=
    ((parse []).text_below h hne).trans (if_pos rfl)
  rw [← htext, clean, parse_text]

theorem clean_under (root : List UInt8) :
    clean (under (clean root) names) = under (clean root) names := by
  have htext : ((parse root).below names h).text = under (clean root) names :=
    (parse root).text_below h hne
  rw [← htext, clean, parse_text]

theorem under_under (root : List UInt8) {more : List (List UInt8)}
    (hmore : ∀ name ∈ more, Plain name) (hmne : more ≠ []) :
    under (under (clean root) names) more = under (clean root) (names ++ more) := by
  have hinner : under (clean root) names = _ := ((parse root).text_below h hne).symm
  rw [hinner, ← Lexical.text_below _ hmore hmne, Lexical.below_below,
    Lexical.text_below _ _ (by simp [hne]), clean]

theorem under_inj (root : List UInt8) {other : List (List UInt8)}
    (hother : ∀ name ∈ other, Plain name) (hone : other ≠ [])
    (heq : under (clean root) names = under (clean root) other) : names = other := by
  have htext : ((parse root).below names h).text = ((parse root).below other hother).text := by
    rw [Lexical.text_below _ h hne, Lexical.text_below _ hother hone]
    exact heq
  have hpath := congrArg parse htext
  rw [parse_text, parse_text] at hpath
  exact List.reverse_injective (List.append_cancel_right (congrArg Lexical.names hpath))

theorem join_names : join names = joined names := by
  cases names with
  | nil => exact absurd rfl hne
  | cons name names =>
    have hname := (h name List.mem_cons_self).ne_nil
    rw [join, List.dropWhile_cons_of_neg (by simpa using hname)]
    exact clean_joined h hne

/-- **A join stays below the directory.** -/
theorem join_below (root : List UInt8) : join [root, joined names] = under (clean root) names := by
  have hjoined : joined names ≠ [] := by
    intro hnil
    have hsplit := splitOn_joined hne fun name hn => (h name hn).no_slash
    rw [hnil] at hsplit
    exact (h [] (hsplit ▸ List.mem_singleton_self [])).ne_nil rfl
  by_cases hroot : root = []
  · subst hroot
    have hjoin : join [[], joined names] = clean (joined names) := by
      rw [join, List.dropWhile_cons_of_pos (by rfl),
        List.dropWhile_cons_of_neg (by simpa using hjoined)]
      exact congrArg clean (List.intercalate_singleton ..)
    rw [hjoin, clean_joined h hne]
    exact (if_pos rfl).symm
  · rw [join, List.dropWhile_cons_of_neg (by simpa using hroot)]
    have hpath : joined [root, joined names] = root ++ slash :: joined names := by
      simp [joined]
    change clean (joined [root, joined names]) = _
    rw [hpath, clean, parse_below h hne hroot, Lexical.text_below _ h hne, clean]

theorem foldl_join (root : List UInt8) :
    names.foldl (fun dir name => join [dir, name]) root = under (clean root) names := by
  induction names generalizing root with
  | nil => exact absurd rfl hne
  | cons name names ih =>
    obtain ⟨hname, hnames⟩ := List.forall_mem_cons.1 h
    have hone : ∀ n ∈ [name], Plain n := List.forall_mem_singleton.2 hname
    have hstep : join [root, name] = under (clean root) [name] := by
      have hjoin := join_below hone (List.cons_ne_nil _ _) root
      rwa [joined, List.intercalate_singleton] at hjoin
    rw [List.foldl_cons, hstep]
    by_cases hlast : names = []
    · rw [hlast]
      rfl
    · rw [ih hnames hlast, clean_under hone (List.cons_ne_nil _ _),
        under_under hone (List.cons_ne_nil _ _) root hnames hlast, List.singleton_append]

end

/-! ## Extensions -/

theorem extFrom_append {tail : List UInt8} (hdot : dot ∉ tail) (hslash : slash ∉ tail)
    (before seen : List UInt8) :
    extFrom (tail ++ before) seen = extFrom before (tail.reverse ++ seen) := by
  induction tail generalizing seen with
  | nil => rfl
  | cons b tail ih =>
    obtain ⟨hb, hdot⟩ := not_or.1 (mt List.mem_cons.2 hdot)
    obtain ⟨hb', hslash⟩ := not_or.1 (mt List.mem_cons.2 hslash)
    rw [List.cons_append, extFrom, if_neg (Ne.symm hb'), if_neg (Ne.symm hb), ih hdot hslash,
      List.reverse_cons, List.append_assoc, List.singleton_append]

theorem extFrom_suffix (before seen : List UInt8) :
    extFrom before seen = [] ∨ extFrom before seen <:+ before.reverse ++ seen := by
  induction before generalizing seen with
  | nil => exact .inl rfl
  | cons b before ih =>
    rw [extFrom, List.reverse_cons, List.append_assoc, List.singleton_append]
    split
    · exact .inl rfl
    · split
      · exact .inr (List.suffix_append _ _)
      · exact ih _

/-- **The extension of a path** is what stands from its last dot on. -/
theorem ext_eq_iff {path tail : List UInt8} (hdot : dot ∉ tail) (hslash : slash ∉ tail) :
    ext path = dot :: tail ↔ dot :: tail <:+ path := by
  constructor
  · intro h
    rcases extFrom_suffix path.reverse [] with hnil | hsuffix
    · rw [ext, hnil] at h
      cases h
    · rw [← h]
      simpa [ext] using hsuffix
  · rintro ⟨stem, rfl⟩
    have hrev : (stem ++ dot :: tail).reverse = tail.reverse ++ dot :: stem.reverse := by simp
    rw [ext, hrev, extFrom_append (by simpa using hdot) (by simpa using hslash),
      List.reverse_reverse, List.append_nil, extFrom, if_neg (by decide), if_pos rfl]

end FilePath
