/-
V12.Engine.ModulePaths — the paths that module specifiers resolve to, from
`resolve_specifier` and `normalize` of `v12-engine/src/module_loader.rs`.

A `PathBuf` is its components, which its equality and hash go by; where a path
leads is the walk from a directory in a file system without links. `normalize`
pops a `..` that it kept before: `resolvedRight_iff` says which paths keep
their file.
-/
import Mathlib.Data.List.DropRight
import Mathlib.Data.Set.Basic

namespace V12.ModulePaths

/-! ## §1 Paths -/

abbrev Text := List Char

/-- `std::path::Component`, without the prefixes of other systems. -/
inductive Component where
  | rootDir
  | curDir
  | parentDir
  | normal (name : Text)
  deriving DecidableEq

/-- What a piece between separators is; empty ones and `.` are skipped. -/
def ofPiece (piece : Text) : Option Component :=
  if piece = [] ∨ piece = ['.'] then none
  else if piece = ['.', '.'] then some .parentDir
  else some (.normal piece)

def isAbsolute (path : Text) : Bool := path.head? = some '/'

/-- `Path::components`: a `.` counts at the start of a relative path. -/
def components (path : Text) : List Component :=
  let pieces := path.splitOn '/'
  (if isAbsolute path then [.rootDir] else if pieces.head? = some ['.'] then [.curDir] else []) ++
    pieces.filterMap ofPiece

/-- `Path::join`: an absolute path replaces, another is put behind a separator. -/
def join (base path : Text) : Text :=
  if isAbsolute path then path
  else if base = [] ∨ base.getLast? = some '/' then base ++ path
  else base ++ '/' :: path

/-- `PathBuf::push` of a component. -/
def push (out : List Component) : Component → List Component
  | .rootDir => [.rootDir]
  | c => out ++ [c]

/-- `PathBuf::pop`: the last component, whatever it is but a root. -/
def pop (out : List Component) : Option (List Component) :=
  match out.getLast? with
  | none | some .rootDir => none
  | some _ => some out.dropLast

/-! ## §2 The source -/

def normalizeStep (out : List Component) : Component → List Component
  | .curDir => out
  | .parentDir => (pop out).getD (push out .parentDir)
  | other => push out other

/-- `normalize`. -/
def normalize (path : List Component) : List Component := path.foldl normalizeStep []

/-- `resolve_specifier`. -/
def resolveSpecifier (baseDir spec : Text) : List Component :=
  normalize (components (join baseDir spec))

/-! ## §3 Files -/

/-- One component from a directory, given by the names from the root. -/
def walk (dir : List Text) : Component → List Text
  | .rootDir => []
  | .curDir => dir
  | .parentDir => dir.dropLast
  | .normal name => dir ++ [name]

def locate (cwd : List Text) (path : List Component) : List Text := path.foldl walk cwd

/-- A referrer directory and a specifier. -/
structure Request where
  base : Text
  spec : Text

/-- The file that a request means: the specifier from the referrer. -/
def Request.file (r : Request) (cwd : List Text) : List Text :=
  locate (locate cwd (components r.base)) (components r.spec)

def Request.key (r : Request) : List Component := resolveSpecifier r.base r.spec

/-- The keys of a program's requests stand for its files: normalising is
idempotent, every key is a path to the file, and one key is of one file. -/
structure ResolvedRight (requests : Set Request) : Prop where
  idempotent : ∀ r ∈ requests, normalize r.key = r.key
  sameFile : ∀ r ∈ requests, ∀ cwd, locate cwd r.key = r.file cwd
  apart : ∀ r ∈ requests, ∀ r' ∈ requests, r.key = r'.key → ∀ cwd, r.file cwd = r'.file cwd

/-- What a path does to a directory: it starts at the root or there, leaves `ups`
directories and enters the names. -/
structure Summary where
  absolute : Bool
  ups : Nat
  names : List Text

def Summary.step (s : Summary) : Component → Summary
  | .rootDir => ⟨true, 0, []⟩
  | .curDir => s
  | .parentDir => if s.names = [] then { s with ups := s.ups + 1 } else { s with names := s.names.dropLast }
  | .normal name => { s with names := s.names ++ [name] }

def summary (path : List Component) : Summary := path.foldl Summary.step ⟨false, 0, []⟩

/-- The path does not leave two directories that it did not enter, or is absolute. -/
def ClimbsOnce (path : List Component) : Prop :=
  (summary path).absolute = true ∨ (summary path).ups ≤ 1

/-! ## §4 The walk of a path -/

def Summary.place (s : Summary) (cwd : List Text) : List Text :=
  (if s.absolute then [] else cwd.take (cwd.length - s.ups)) ++ s.names

theorem walk_place (s : Summary) (cwd : List Text) (c : Component) :
    walk (s.place cwd) c = (s.step c).place cwd := by
  cases c with
  | rootDir => simp [walk, Summary.step, Summary.place]
  | curDir => rfl
  | normal name => exact List.append_assoc _ s.names [name]
  | parentDir =>
    unfold walk Summary.step
    by_cases hnames : s.names = []
    · rw [if_pos hnames]
      unfold Summary.place
      rw [hnames, List.append_nil, List.append_nil]
      cases s.absolute with
      | true => rfl
      | false =>
        simp only [Bool.false_eq_true, if_false]
        rw [List.dropLast_eq_take, List.length_take, List.take_take]
        congr 1
        omega
    · rw [if_neg hnames]
      exact List.dropLast_append_of_ne_nil hnames

theorem locate_eq (cwd : List Text) (path : List Component) :
    locate cwd path = (summary path).place cwd := by
  have hfold (s : Summary) : path.foldl walk (s.place cwd) = (path.foldl Summary.step s).place cwd := by
    induction path generalizing s with
    | nil => rfl
    | cons c cs ih => rw [List.foldl_cons, List.foldl_cons, walk_place, ih]
  have hstart : (⟨false, 0, []⟩ : Summary).place cwd = cwd := by simp [Summary.place]
  have hwalk := hfold ⟨false, 0, []⟩
  rwa [hstart] at hwalk

/-! ## §5 What normalising leaves -/

/-- The components that a summary is normalised to: of the directories left, one
or none. -/
def Summary.shown (s : Summary) : List Component :=
  (if s.absolute then [.rootDir] else []) ++ (if s.ups % 2 = 1 then [.parentDir] else []) ++
    s.names.map .normal

theorem normalizeStep_shown (s : Summary) (c : Component) :
    normalizeStep s.shown c = (s.step c).shown := by
  cases c with
  | rootDir => rfl
  | curDir => rfl
  | normal name =>
    have hnames : (s.step (.normal name)).shown = _ ++ (s.names ++ [name]).map .normal := rfl
    rw [hnames, List.map_append, ← List.append_assoc]
    rfl
  | parentDir =>
    unfold normalizeStep Summary.step
    rcases List.eq_nil_or_concat s.names with hnames | ⟨names, name, hnames⟩
    · rw [if_pos hnames]
      unfold Summary.shown
      rw [hnames]
      -- at the start and at the root a first `..` is kept and a second takes it away
      rcases Nat.mod_two_eq_zero_or_one s.ups with hup | hup
      · have hnext : (s.ups + 1) % 2 = 1 := by omega
        simp only [hup, hnext]
        cases s.absolute <;> rfl
      · have hnext : (s.ups + 1) % 2 = 0 := by omega
        simp only [hup, hnext]
        cases s.absolute <;> rfl
    · have hne : s.names ≠ [] := by
        rw [hnames]
        simp
      rw [if_neg hne]
      unfold Summary.shown
      rw [hnames]
      simp [pop, List.dropLast_append_of_ne_nil]

theorem normalize_eq (path : List Component) : normalize path = (summary path).shown := by
  have hfold (s : Summary) :
      path.foldl normalizeStep s.shown = (path.foldl Summary.step s).shown := by
    induction path generalizing s with
    | nil => rfl
    | cons c cs ih => rw [List.foldl_cons, List.foldl_cons, normalizeStep_shown, ih]
  exact hfold ⟨false, 0, []⟩

theorem summary_shown (s : Summary) : summary s.shown = { s with ups := s.ups % 2 } := by
  have hnames (t : Summary) (names : List Text) :
      (names.map Component.normal).foldl Summary.step t = { t with names := t.names ++ names } := by
    induction names generalizing t with
    | nil => simp
    | cons n ns ih =>
      rw [List.map_cons, List.foldl_cons, ih]
      simp [Summary.step]
  unfold summary Summary.shown
  rw [List.foldl_append, hnames]
  rcases Nat.mod_two_eq_zero_or_one s.ups with hup | hup
  · rw [hup]
    cases s.absolute <;> simp [Summary.step]
  · rw [hup]
    cases s.absolute <;> simp [Summary.step]

theorem normalize_normalize (path : List Component) : normalize (normalize path) = normalize path := by
  rw [normalize_eq (normalize path), normalize_eq path, summary_shown]
  unfold Summary.shown
  simp only [Nat.mod_mod]

theorem locate_normalize_iff (path : List Component) :
    (∀ cwd, locate cwd (normalize path) = locate cwd path) ↔ ClimbsOnce path := by
  simp only [locate_eq, normalize_eq, summary_shown]
  unfold ClimbsOnce
  generalize summary path = s
  unfold Summary.place
  cases habs : s.absolute with
  | true => simp
  | false =>
    simp only [Bool.false_eq_true, if_false, false_or, List.append_cancel_right_eq]
    constructor
    · -- from a directory as deep as the path climbs
      intro hsame
      have hdeep := congrArg List.length (hsame (List.replicate s.ups []))
      rw [List.length_take, List.length_take, List.length_replicate] at hdeep
      omega
    · intro hups cwd
      rw [Nat.mod_eq_of_lt (by omega)]

/-! ## §6 Requests -/

theorem locate_components (cwd : List Text) (path : Text) :
    locate cwd (components path) =
      locate (if isAbsolute path then [] else cwd) ((path.splitOn '/').filterMap ofPiece) := by
  unfold components locate
  rw [List.foldl_append]
  congr 1
  split
  · rfl
  · split <;> rfl

theorem locate_behind (cwd : List Text) {base start path : Text} (habs : ¬ isAbsolute path = true)
    (hstart : isAbsolute (start ++ '/' :: path) = isAbsolute base)
    (hpieces : (start.splitOn '/').filterMap ofPiece = (base.splitOn '/').filterMap ofPiece) :
    locate cwd (components (start ++ '/' :: path)) =
      locate (locate cwd (components base)) (components path) := by
  rw [locate_components cwd, locate_components cwd base, locate_components _ path, if_neg habs,
    hstart, List.splitOn_append_cons_self, List.filterMap_append, hpieces]
  exact List.foldl_append

theorem locate_join (cwd : List Text) (base path : Text) :
    locate cwd (components (join base path)) =
      locate (locate cwd (components base)) (components path) := by
  unfold join
  by_cases habs : isAbsolute path = true
  · rw [if_pos habs, locate_components cwd path, locate_components _ path, if_pos habs, if_pos habs]
  · rw [if_neg habs]
    rcases List.eq_nil_or_concat base with rfl | ⟨start, last, rfl⟩
    · rw [if_pos (.inl rfl)]
      rfl
    · have hne : start ++ [last] ≠ [] := by simp
      have hlast : (start ++ [last]).getLast? = some last := by simp
      rw [List.concat_eq_append, hlast]
      by_cases hsep : last = '/'
      · subst hsep
        rw [if_pos (.inr rfl), List.append_assoc]
        refine locate_behind cwd habs ?_ ?_
        · cases start <;> rfl
        · rw [List.splitOn_append_cons_self, List.filterMap_append]
          simp [ofPiece]
      · rw [if_neg (by simp [hne, hsep])]
        refine locate_behind cwd habs ?_ rfl
        cases start <;> rfl

namespace Request

variable (r : Request)

theorem normalize_key : normalize r.key = r.key := normalize_normalize _

theorem locate_key_iff :
    (∀ cwd, locate cwd r.key = r.file cwd) ↔ ClimbsOnce (components (join r.base r.spec)) := by
  rw [← locate_normalize_iff]
  refine forall_congr' fun cwd => ?_
  rw [locate_join]
  rfl

end Request

/-- **The keys are right exactly when** no joined path climbs twice. -/
theorem resolvedRight_iff (requests : Set Request) :
    ResolvedRight requests ↔ ∀ r ∈ requests, ClimbsOnce (components (join r.base r.spec)) := by
  constructor
  · intro h r hr
    exact r.locate_key_iff.mp (h.sameFile r hr)
  · intro hclimbs
    have hfile : ∀ r ∈ requests, ∀ cwd, locate cwd r.key = r.file cwd := fun r hr =>
      r.locate_key_iff.mpr (hclimbs r hr)
    refine ⟨fun r _ => r.normalize_key, hfile, ?_⟩
    intro r hr r' hr' hkey cwd
    rw [← hfile r hr, ← hfile r' hr', hkey]

/-- `import "../../a.js"` and `import "a.js"`. -/
def twoLevelsUp : Request := ⟨[], ['.', '.', '/', '.', '.', '/', 'a']⟩

def sameDirectory : Request := ⟨[], ['a']⟩

/-- They share a key and are two files. -/
theorem not_resolvedRight : ¬ ∀ requests : Set Request, ResolvedRight requests := by
  intro h
  have hright := h {twoLevelsUp, sameDirectory}
  have hsame := hright.apart twoLevelsUp (.inl rfl) sameDirectory (.inr rfl) (by decide)
    [['x'], ['y']]
  exact absurd hsame (by decide)

end V12.ModulePaths
