import Mathlib.Data.Set.Finite.Lattice
import Nstd.Core.Bytes
import Nstd.Core.Pieces

/-!
# Trees of files, and paths in them

* `FileTree` — directories, files and symbolic links, known by their places below the root.
* `walk` — the directory that names lead to, through links; `follow` and `entry` for a path, whose last
  name is followed or not.
* `Names` — the only directory that a path can lead to.
* **`Names.entry_eq`**, **`Names.child`**, **`Names.entry_child`** — what a path names, and what a path
  with another name behind it names.
* `Within` — some of the files; paths lead nowhere else then.
-/

namespace Nstd

/-- The names of directories from the root on, and of a file in the last one -/
abbrev FilePlace := List (List UInt8)

/-- What stands at a place; a link has the path that it leads to. -/
inductive FileKind
  | directory
  | file
  | link (target : List UInt8)
  deriving DecidableEq

/-- Names in a directory -/
structure IsName (n : List UInt8) : Prop where
  ne_nil : n ≠ []
  noSlash : ∀ c ∈ n, (c == ch '/') = false
  ne_dot : n ≠ bytes "."
  ne_up : n ≠ bytes ".."

/-- **A tree** of finitely many files, each of which is in a directory -/
structure FileTree where
  kind : FilePlace → Option FileKind
  names : ∀ place n k, kind (place ++ [n]) = some k → IsName n
  parents : ∀ place n k, kind (place ++ [n]) = some k → kind place = some .directory
  finite : {place | kind place ≠ none}.Finite

lemma isName_iff (n : List UInt8) : n ≠ [] ∧ (n.any fun c => c == ch '/') = false ∧
    n ≠ bytes "." ∧ n ≠ bytes ".." ↔ IsName n := by
  simp only [List.any_eq_false, Bool.not_eq_true]
  exact ⟨fun h => ⟨h.1, h.2.1, h.2.2.1, h.2.2.2⟩, fun h => ⟨h.ne_nil, h.noSlash, h.ne_dot, h.ne_up⟩⟩

instance (n : List UInt8) : Decidable (IsName n) := decidable_of_iff _ (isName_iff n)

namespace FileTree

lemma mem_of_lookup {files : List (FilePlace × FileKind)} {place : FilePlace} {k : FileKind}
    (h : files.lookup place = some k) : (place, k) ∈ files := by
  obtain ⟨front, rest, rfl, -⟩ := List.lookup_eq_some_iff.mp h
  simp

/-- The tree of the files in a list -/
def ofList (files : List (FilePlace × FileKind)) (hnames : ∀ e ∈ files, ∀ n ∈ e.1.getLast?, IsName n)
    (hparents : ∀ e ∈ files, e.1 = [] ∨ files.lookup e.1.dropLast = some .directory) : FileTree where
  kind place := files.lookup place
  names place n k h := hnames _ (mem_of_lookup h) n (by simp)
  parents place n k h := by
    have hparent := (hparents _ (mem_of_lookup h)).resolve_left (by simp)
    simpa using hparent
  finite := by
    refine (files.map Prod.fst).finite_toSet.subset fun place h => ?_
    obtain ⟨k, hk⟩ := Option.ne_none_iff_exists'.mp h
    exact List.mem_map.mpr ⟨(place, k), mem_of_lookup hk, rfl⟩

/-! ## Paths -/

/-- The names in a path -/
def components (path : List UInt8) : List (List UInt8) :=
  (path.splitOn (ch '/')).filter (· ≠ [])

/-- Where a path begins -/
def start (cwd : FilePlace) (path : List UInt8) : FilePlace :=
  if path.head? = some (ch '/') then [] else cwd

/-- Where one name leads from a directory, and the names that a link puts in front of others -/
def lookup (t : FileTree) (place : FilePlace) (n : List UInt8) : Option (FilePlace × List (List UInt8)) :=
  if n = bytes "." then some (place, [])
  else if n = bytes ".." then some (place.dropLast, [])
  else
    match t.kind (place ++ [n]) with
    | some .directory => some (place ++ [n], [])
    | some (.link target) => some (start place target, components target)
    | some .file => none
    | none => none

/-- The directory that names lead to from another one, if at most `limit` of them are looked up -/
def walk (t : FileTree) : ℕ → FilePlace → List (List UInt8) → Option FilePlace
  | _, place, [] => some place
  | 0, _, _ :: _ => none
  | limit + 1, place, n :: names =>
    (t.lookup place n).bind fun r => t.walk limit r.1 (r.2 ++ names)

/-- The directory that a path leads to -/
def follow (t : FileTree) (limit : ℕ) (cwd : FilePlace) (path : List UInt8) : Option FilePlace :=
  if path = [] then none else t.walk limit (start cwd path) (components path)

/-- The place that a path leads to, where its last name is that of a link also -/
def entry (t : FileTree) (limit : ℕ) (cwd : FilePlace) (path : List UInt8) : Option FilePlace :=
  if path = [] then none
  else
    match (components path).getLast? with
    | none => some (start cwd path)
    | some n =>
      if n = bytes "." ∨ n = bytes ".." then t.walk limit (start cwd path) (components path)
      else (t.walk limit (start cwd path) (components path).dropLast).map (· ++ [n])

/-- Each file of a tree is one of another tree. -/
def Within (t' t : FileTree) : Prop := ∀ place k, t'.kind place = some k → t.kind place = some k

/-- **The only directory** that a path can lead to -/
def Names (t : FileTree) (cwd : FilePlace) (path : List UInt8) (place : FilePlace) : Prop :=
  ∀ limit found, t.walk limit (start cwd path) (components path) = some found → found = place

variable {t t' : FileTree} {limit : ℕ} {cwd place found : FilePlace} {path n : List UInt8}
  {names : List (List UInt8)}

/-- Nothing is below a place where there is nothing. -/
lemma kind_below (t : FileTree) {q : FilePlace} (h : t.kind place = none) (hq : place <+: q) :
    t.kind q = none := by
  obtain ⟨rest, rfl⟩ := hq
  induction rest using List.reverseRecOn with
  | nil => rwa [List.append_nil]
  | append_singleton rest n ih =>
    cases hk : t.kind (place ++ (rest ++ [n])) with
    | none => rfl
    | some k =>
      rw [← List.append_assoc] at hk
      have hparent := t.parents _ n k hk
      rw [ih] at hparent
      exact nomatch hparent

/-- The places of a tree are not deeper than some number. -/
lemma exists_depth (t : FileTree) : ∃ depth, ∀ q, t.kind q ≠ none → q.length ≤ depth := by
  obtain ⟨depth, hdepth⟩ := (t.finite.image List.length).bddAbove
  exact ⟨depth, fun q hq => hdepth ⟨q, hq, rfl⟩⟩

/-! ## Walks -/

/-- A walk that ends looks up the first name. -/
lemma walk_cons (h : t.walk limit place (n :: names) = some found) :
    ∃ limit' next more, limit = limit' + 1 ∧ t.lookup place n = some (next, more) ∧
      t.walk limit' next (more ++ names) = some found := by
  cases limit with
  | zero => exact nomatch h
  | succ limit =>
    obtain ⟨⟨next, more⟩, hlookup, hrest⟩ := Option.bind_eq_some_iff.mp h
    exact ⟨limit, next, more, rfl, hlookup, hrest⟩

lemma walk_of_lookup {next : FilePlace} {more : List (List UInt8)}
    (h : t.lookup place n = some (next, more)) :
    t.walk (limit + 1) place (n :: names) = t.walk limit next (more ++ names) := by
  rw [walk, h, Option.bind_some]

lemma lookup_directory (hn : IsName n) (h : t.kind (place ++ [n]) = some .directory) :
    t.lookup place n = some (place ++ [n], []) := by
  rw [lookup, if_neg hn.ne_dot, if_neg hn.ne_up, h]

/-- A walk that ends before the limit ends there with a greater one. -/
lemma walk_succ (h : t.walk limit place names = some found) :
    t.walk (limit + 1) place names = some found := by
  induction limit generalizing place names with
  | zero =>
    cases names with
    | nil => exact h
    | cons n names => exact nomatch h
  | succ limit ih =>
    cases names with
    | nil => exact h
    | cons n names =>
      obtain ⟨_, next, more, hlimit, hlookup, hrest⟩ := walk_cons h
      obtain rfl := Nat.succ_inj.mp hlimit
      rw [walk_of_lookup hlookup]
      exact ih hrest

lemma walk_le {limit' : ℕ} (hle : limit ≤ limit') (h : t.walk limit place names = some found) :
    t.walk limit' place names = some found := by
  induction hle with
  | refl => exact h
  | step _ ih => exact walk_succ ih

lemma walk_unique {limit' : ℕ} {found' : FilePlace} (h : t.walk limit place names = some found)
    (h' : t.walk limit' place names = some found') : found = found' := by
  have hmax := walk_le (Nat.le_max_left limit limit') h
  rw [walk_le (Nat.le_max_right limit limit') h'] at hmax
  exact (Option.some.inj hmax).symm

/-- **A walk in two parts** -/
lemma walk_append {last : List (List UInt8)} (h : t.walk limit place (names ++ last) = some found) :
    ∃ between, t.walk limit place names = some between ∧ t.walk limit between last = some found := by
  induction limit generalizing place names with
  | zero =>
    cases names with
    | nil => exact ⟨place, rfl, h⟩
    | cons n names => exact nomatch h
  | succ limit ih =>
    cases names with
    | nil => exact ⟨place, rfl, h⟩
    | cons n names =>
      rw [List.cons_append] at h
      obtain ⟨_, next, more, hlimit, hlookup, hrest⟩ := walk_cons h
      obtain rfl := Nat.succ_inj.mp hlimit
      rw [← List.append_assoc] at hrest
      obtain ⟨between, hfirst, hsecond⟩ := ih hrest
      exact ⟨between, (walk_of_lookup hlookup).trans hfirst, walk_succ hsecond⟩

/-- The parts after each other -/
lemma walk_trans {limit' : ℕ} {between : FilePlace} {last : List (List UInt8)}
    (h : t.walk limit place names = some between) (h' : t.walk limit' between last = some found) :
    t.walk (limit + limit') place (names ++ last) = some found := by
  induction limit generalizing place names with
  | zero =>
    cases names with
    | nil =>
      obtain rfl := Option.some.inj h
      rw [Nat.zero_add]
      exact h'
    | cons n names => exact nomatch h
  | succ limit ih =>
    cases names with
    | nil =>
      obtain rfl := Option.some.inj h
      exact walk_le (Nat.le_add_left _ _) h'
    | cons n names =>
      obtain ⟨_, next, more, hlimit, hlookup, hrest⟩ := walk_cons h
      obtain rfl := Nat.succ_inj.mp hlimit
      rw [List.cons_append, Nat.add_right_comm, walk_of_lookup hlookup, ← List.append_assoc]
      exact ih hrest

lemma Within.lookup {r : FilePlace × List (List UInt8)} (hwithin : t'.Within t)
    (h : t'.lookup place n = some r) : t.lookup place n = some r := by
  rw [FileTree.lookup] at h ⊢
  split_ifs at h ⊢
  · exact h
  · exact h
  · cases hk : t'.kind (place ++ [n]) with
    | none => simp [hk] at h
    | some k =>
      rw [hk] at h
      rw [hwithin _ _ hk]
      exact h

/-- Where files are missing, walks lead nowhere else. -/
lemma Within.walk (hwithin : t'.Within t) (h : t'.walk limit place names = some found) :
    t.walk limit place names = some found := by
  induction limit generalizing place names with
  | zero =>
    cases names with
    | nil => exact h
    | cons n names => exact nomatch h
  | succ limit ih =>
    cases names with
    | nil => exact h
    | cons n names =>
      obtain ⟨_, next, more, hlimit, hlookup, hrest⟩ := walk_cons h
      obtain rfl := Nat.succ_inj.mp hlimit
      rw [walk_of_lookup (hwithin.lookup hlookup)]
      exact ih hrest

lemma Within.refl (t : FileTree) : t.Within t := fun _ _ h => h

lemma Within.trans {t'' : FileTree} (h : t''.Within t') (h' : t'.Within t) : t''.Within t :=
  fun place k hk => h' place k (h place k hk)

/-! ## What a path names -/

lemma Names.within (h : t.Names cwd path place) (hwithin : t'.Within t) : t'.Names cwd path place :=
  fun limit found hwalk => h limit found (hwithin.walk hwalk)

lemma names_of_follow (h : t.follow limit cwd path = some place) : t.Names cwd path place := by
  rw [follow] at h
  split_ifs at h
  intro limit' found hwalk
  exact walk_unique hwalk h

lemma Names.follow_eq (h : t.Names cwd path place) (hfollow : t.follow limit cwd path = some found) :
    found = place := by
  rw [follow] at hfollow
  split_ifs at hfollow
  exact h limit found hfollow

lemma components_append (hn : IsName n) : components (path ++ ch '/' :: n) = components path ++ [n] := by
  have hslash : (fun c : UInt8 => c == ch '/') (ch '/') = true := beq_self_eq_true _
  have hsingle : n.splitOnP (fun c => c == ch '/') = [n] := List.splitOnP_eq_singleton hn.noSlash
  have hsplit : (path ++ ch '/' :: n).splitOnP (fun c => c == ch '/')
      = path.splitOnP (fun c => c == ch '/') ++ n.splitOnP fun c => c == ch '/' :=
    List.splitOnP_append_cons path n hslash
  have hkept : [n].filter (· ≠ []) = [n] := by simp [hn.ne_nil]
  have hkept : [n].filter (fun c => decide (c ≠ [])) = [n] := by simp [hn.ne_nil]
  rw [components, List.splitOn_eq_splitOnP, hsplit, hsingle, List.filter_append, hkept]
  rfl

lemma start_append (hpath : path ≠ []) (rest : List UInt8) :
    start cwd (path ++ rest) = start cwd path := by
  obtain ⟨c, path, rfl⟩ := List.exists_cons_of_ne_nil hpath
  rfl

/-- **A directory in a directory** -/
theorem Names.child (h : t.Names cwd path place) (hpath : path ≠ []) (hn : IsName n)
    (hkind : t.kind (place ++ [n]) = some .directory) :
    t.Names cwd (path ++ ch '/' :: n) (place ++ [n]) := by
  intro limit found hwalk
  rw [components_append hn, start_append hpath] at hwalk
  obtain ⟨between, hfirst, hsecond⟩ := walk_append hwalk
  obtain rfl := h limit between hfirst
  have hstep := @walk_of_lookup t 0 _ n [] _ _ (lookup_directory hn hkind)
  exact walk_unique hsecond hstep

/-- **A file in a directory** -/
theorem Names.entry_child (h : t.Names cwd path place) (hpath : path ≠ []) (hn : IsName n)
    (hentry : t.entry limit cwd (path ++ ch '/' :: n) = some found) : found = place ++ [n] := by
  rw [entry, if_neg (by simp), components_append hn, start_append hpath] at hentry
  simp only [List.getLast?_concat, hn.ne_dot, hn.ne_up, or_self, if_false,
    List.dropLast_concat] at hentry
  obtain ⟨between, hwalk, rfl⟩ := Option.map_eq_some_iff.mp hentry
  rw [h limit between hwalk]

/-- **A directory** that a path leads to, where its last name is not followed -/
theorem Names.entry_eq (h : t.Names cwd path place) (hentry : t.entry limit cwd path = some found)
    (hkind : t.kind found = some .directory) : found = place := by
  rw [entry] at hentry
  split_ifs at hentry
  cases hlast : (components path).getLast? with
  | none =>
    simp only [hlast] at hentry
    obtain rfl := Option.some.inj hentry
    have hnil : components path = [] := List.getLast?_eq_none_iff.mp hlast
    refine h 0 _ ?_
    rw [hnil]
    rfl
  | some n =>
    simp only [hlast] at hentry
    split_ifs at hentry with hdots
    · exact h limit found hentry
    · obtain ⟨between, hwalk, rfl⟩ := Option.map_eq_some_iff.mp hentry
      have hsplit : (components path).dropLast ++ [n] = components path :=
        List.dropLast_append_getLast? n hlast
      have hstep := @walk_of_lookup t 0 between n [] _ _
        (lookup_directory (t.names _ _ _ hkind) hkind)
      refine h (limit + 1) _ ?_
      rw [← hsplit]
      exact walk_trans hwalk hstep

end FileTree

end Nstd
