import OsLab.Posix

/-!
# A tree of files

A file system with directories, files and symbolic links, and how a path is resolved in it: component by component from the root or from
the working directory, with links followed except at the end. A directory lists its entries in the order of the nodes.
-/

namespace OsLab.Posix

/-- The byte `'/'`. -/
abbrev SLASH : UInt8 := 47

/-- The name "." -/
def DOT : Bytes := [46]

/-- The name ".." -/
def DOTDOT : Bytes := [46, 46]

/-- The name of an entry. -/
abbrev Name := Bytes

/-- Where something is in the tree: the names on the way from the root. -/
abbrev Loc := List Name

inductive Kind where
  | file
  | dir
  | link (target : Bytes)
  deriving DecidableEq, Repr

def ENOTDIR : Nat := 20

def EISDIR : Nat := 21

def EBUSY : Nat := 16

def EINVAL : Nat := 22

def ENAMETOOLONG : Nat := 36

def ENOTEMPTY : Nat := 39

def ELOOP : Nat := 40

/-- A name that an entry can have. -/
def ValidName (n : Name) : Prop := n ≠ [] ∧ SLASH ∉ n ∧ 0 ∉ n ∧ n ≠ DOT ∧ n ≠ DOTDOT

instance (n : Name) : Decidable (ValidName n) := inferInstanceAs (Decidable (_ ∧ _ ∧ _ ∧ _ ∧ _))

/-- What is at a location, in a list of nodes. The root is a directory. -/
def kindIn (nodes : List (Loc × Kind)) (l : Loc) : Option Kind :=
  if l = [] then some .dir else (nodes.find? fun p => p.1 = l).map Prod.snd

/-- A finite tree: every node has a name, and is in a directory. -/
structure FileTree where
  nodes : List (Loc × Kind)
  rooted : ∀ p ∈ nodes, p.1 ≠ []
  named : ∀ p ∈ nodes, ∀ n ∈ p.1.getLast?, ValidName n
  closed : ∀ p ∈ nodes, kindIn nodes p.1.dropLast = some .dir

namespace FileTree

def kind (t : FileTree) (l : Loc) : Option Kind := kindIn t.nodes l

/-- The entries of a directory. -/
def names (t : FileTree) (l : Loc) : List Name :=
  t.nodes.filterMap fun p => if p.1.dropLast = l then p.1.getLast? else none

theorem kindIn_isSome {nodes : List (Loc × Kind)} {l : Loc} (hl : l ≠ []) : (kindIn nodes l).isSome ↔ ∃ p ∈ nodes, p.1 = l := by
  rw [kindIn, if_neg hl, Option.isSome_map, List.find?_isSome]
  simp

theorem kindIn_filter {nodes : List (Loc × Kind)} {l x : Loc} (hx : x ≠ l) :
    kindIn (nodes.filter fun p => p.1 ≠ l) x = kindIn nodes x := by
  unfold kindIn
  split
  · rfl
  · rw [List.find?_filter]
    refine congrArg (Option.map Prod.snd) (congrArg (fun f => nodes.find? f) (funext fun p => ?_))
    by_cases hp : p.1 = x <;> simp [hp, hx]

theorem snoc_ne_nil (l : Loc) (n : Name) : l ++ [n] ≠ [] := List.append_ne_nil_of_right_ne_nil l (List.cons_ne_nil n [])

theorem mem_names {t : FileTree} {l : Loc} {n : Name} : n ∈ t.names l ↔ (t.kind (l ++ [n])).isSome := by
  rw [kind, kindIn_isSome (snoc_ne_nil l n), names, List.mem_filterMap]
  constructor
  · rintro ⟨p, hp, heq⟩
    split at heq
    · rename_i hdrop
      refine ⟨p, hp, ?_⟩
      obtain ⟨x, hx⟩ := List.getLast?_eq_some_iff.mp heq
      rw [hx, List.dropLast_concat] at hdrop
      rw [hx, hdrop]
    · cases heq
  · rintro ⟨p, hp, heq⟩
    refine ⟨p, hp, ?_⟩
    rw [heq, if_pos List.dropLast_concat, List.getLast?_concat]

/-- An entry is in a directory. -/
theorem dir_of_child {t : FileTree} {l : Loc} {n : Name} (h : (t.kind (l ++ [n])).isSome) : t.kind l = some .dir := by
  obtain ⟨p, hp, heq⟩ := (kindIn_isSome (snoc_ne_nil l n)).mp h
  have hclosed := t.closed p hp
  rwa [heq, List.dropLast_concat] at hclosed

theorem valid_of_child {t : FileTree} {l : Loc} {n : Name} (h : (t.kind (l ++ [n])).isSome) : ValidName n := by
  obtain ⟨p, hp, heq⟩ := (kindIn_isSome (snoc_ne_nil l n)).mp h
  exact t.named p hp n (by rw [heq, List.getLast?_concat]; rfl)

/-- Only a directory has entries. -/
theorem names_of_ne_dir {t : FileTree} {l : Loc} (h : t.kind l ≠ some .dir) : t.names l = [] :=
  List.eq_nil_iff_forall_not_mem.mpr fun _ hn => h (dir_of_child (mem_names.mp hn))

/-- The tree without a node that has no entries. -/
def remove (t : FileTree) (l : Loc) (h : t.names l = []) : FileTree where
  nodes := t.nodes.filter fun p => p.1 ≠ l
  rooted p hp := t.rooted p (List.mem_filter.mp hp).1
  named p hp := t.named p (List.mem_filter.mp hp).1
  closed p hp := by
    have hmem := (List.mem_filter.mp hp).1
    have hne : p.1.dropLast ≠ l := by
      intro heq
      obtain ⟨n, hn⟩ := Option.isSome_iff_exists.mp (List.getLast?_isSome.mpr (t.rooted p hmem))
      have hmem' : n ∈ t.names l := List.mem_filterMap.mpr ⟨p, hmem, by rw [if_pos heq, hn]⟩
      rw [h] at hmem'
      cases hmem'
    rw [kindIn_filter hne]
    exact t.closed p hmem

/-- The components of a path. -/
def components (path : Path) : List Name := path.splitOnP (· == SLASH)

/-- The last name in a path, whatever slashes follow it. -/
def lastName (path : Path) : Option Name := ((components path).filter (· ≠ [])).getLast?

/-- Where the resolution of a path starts. -/
def start (cwd : Loc) (path : Path) : Loc := if path.head? = some SLASH then [] else cwd

/-- The walk along the components from a directory on. A link on the way is followed by `follow`, with the components that are left. -/
def walkFrom (t : FileTree) (follow : Loc → List Name → Except Nat Loc) : Loc → List Name → Except Nat Loc
  | cur, [] => .ok cur
  | cur, c :: cs =>
    match t.kind cur with
    | none => .error ENOENT
    | some .dir =>
      if c = [] ∨ c = DOT then walkFrom t follow cur cs
      else if c = DOTDOT then walkFrom t follow cur.dropLast cs
      else
        match t.kind (cur ++ [c]) with
        | none => .error ENOENT
        | some (.link target) =>
          if cs = [] then .ok (cur ++ [c])
          else if target = [] then .error ENOENT
          else follow (start cur target) (components target ++ cs)
        | some _ => walkFrom t follow (cur ++ [c]) cs
    | some _ => .error ENOTDIR

/-- The walk with at most so many links on the way. -/
def walk (t : FileTree) : Nat → Loc → List Name → Except Nat Loc
  | 0 => t.walkFrom fun _ _ => .error ELOOP
  | k + 1 => t.walkFrom (walk t k)

/-- `PATH_MAX`. -/
def PATH_MAX : Nat := 4096

/-- `SYMLOOP_MAX`. -/
def SYMLOOP_MAX : Nat := 40

/-- What a path names, without following a link at its end. -/
def resolve (t : FileTree) (cwd : Loc) (path : Path) : Except Nat Loc :=
  if path = [] then .error ENOENT
  else if PATH_MAX ≤ path.length then .error ENAMETOOLONG
  else t.walk SYMLOOP_MAX (start cwd path) (components path)

end FileTree

end OsLab.Posix
