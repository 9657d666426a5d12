import Nstd.Core.Bytes
import Nstd.Core.Components
import Nstd.Core.Pieces
import Nstd.Core.Texts

/-!
# `File::simplifyPath`

The result is a text on which components are put, and from which they are taken away again by a scan
from its end.

* `isSlash`, `scanBack`, `addChunk`, `simplifyFrom`, `simplifyPath` — the code.
* `stackFold` — the components of a path on a stack; `render` — the text of a stack.
* `addChunk_render` — a component does to the text what it does to the stack.
* **`simplifyPath_eq`** — the result is the text of the stack.
* **`simplifyPath_components`** — its components, and that it is simple.
* **`absolute_iff`** — it is absolute if the path is, unless nothing is kept; `root_lost`.

The last component can always be found again from the end of a text, which is why the code needs no
stack.
-/

namespace Nstd.File

/-! ## Functions -/

/-- `c == '/' || c == '\\'` -/
def isSlash (c : UInt8) : Bool := c = ch '/' ∨ c = ch '\\'

/-- `String::compare(s, literal) == 0`: the bytes in front of the NUL are those of the literal. -/
def same (s literal : List UInt8) : Bool := s.takeWhile (· ≠ 0) = literal

/-- A scan back over the bytes in front of a place -/
def scanBack (p : UInt8 → Bool) (data : List UInt8) : ℕ → Option ℕ
  | 0 => none
  | pos + 1 => if data[pos]?.any p then some pos else scanBack p data pos

/-- What the loop does with a component -/
def addChunk (startsWithSlash : Bool) (result chunck : List UInt8) : List UInt8 :=
  let added := (if result ≠ [] ∨ startsWithSlash then result ++ [ch '/'] else result) ++ chunck
  if chunck = bytes ".." ∧ result ≠ [] then
    match scanBack isSlash result result.length with
    | none => if same result (bytes "..") then added else []
    | some pos => if same (result.drop (pos + 1)) (bytes "..") then added else result.take pos
  else if chunck = bytes "." then result
  else added

/-- The loop, from `start` on -/
def simplifyFrom (startsWithSlash : Bool) (result start : List UInt8) : List UInt8 :=
  let chunck := (start.dropWhile isSlash).takeWhile fun c => !isSlash c
  if chunck = [] then result
  else
    let result := addChunk startsWithSlash result chunck
    match _h : (start.dropWhile isSlash).dropWhile fun c => !isSlash c with
    | [] => result
    | _ :: rest => simplifyFrom startsWithSlash result rest
  termination_by start.length
  decreasing_by
    have hlen := congrArg List.length _h
    have hle := List.length_dropWhile_le (fun c => !isSlash c) (start.dropWhile isSlash)
    have hle' := List.length_dropWhile_le isSlash start
    rw [List.length_cons] at hlen
    omega

/-- `*data == '/' || *data == '\\'` -/
def startsWithSlash (path : List UInt8) : Bool := path.head?.any isSlash

/-- `simplifyPath` -/
def simplifyPath (path : List UInt8) : List UInt8 := simplifyFrom (startsWithSlash path) [] path

/-! ## The stack -/

/-- Components that mean nothing -/
def isNoName (c : List UInt8) : Bool := c = [] ∨ c = bytes "."

/-- A component on the stack of those that are kept -/
def push : List (List UInt8) → List UInt8 → List (List UInt8) :=
  Components.step isNoName (bytes "..")

/-- The components that are kept of a path -/
def stackFold (components : List (List UInt8)) : List (List UInt8) :=
  Components.normalize isNoName (bytes "..") components

/-- The text of the components, with a slash in front if the path is absolute and one is there -/
def render (absolute : Bool) (stack : List (List UInt8)) : List UInt8 :=
  [ch '/'].intercalate (if absolute then [] :: stack else stack)

/-- What stands between separators -/
structure IsChunk (c : List UInt8) : Prop where
  ne_nil : c ≠ []
  noSlash : ∀ d ∈ c, isSlash d = false
  noNul : 0 ∉ c

lemma isNoName_up : isNoName (bytes "..") = false := by decide

lemma isSlash_slash : isSlash (ch '/') = true := by decide

variable {absolute : Bool} {stack : List (List UInt8)} {c : List UInt8}

lemma render_nil (absolute : Bool) : render absolute [] = [] := by cases absolute <;> rfl

lemma render_eq_nil_iff (h : ∀ c ∈ stack, IsChunk c) : render false stack = [] ↔ stack = [] := by
  cases stack with
  | nil => simp [render_nil]
  | cons c stack =>
    have hne := (h c List.mem_cons_self).ne_nil
    by_cases hnil : stack = []
    · simp [render, hnil, hne]
    · simp [render, List.intercalate_cons_of_ne_nil hnil]

/-- A component is added behind a slash if there is a path to add it to. -/
lemma render_concat (h : ∀ c ∈ stack, IsChunk c) (c : List UInt8) : render absolute (stack ++ [c]) =
    (if render absolute stack ≠ [] ∨ absolute then render absolute stack ++ [ch '/']
      else render absolute stack) ++ c := by
  cases absolute with
  | true =>
    rw [if_pos (Or.inr rfl), List.append_assoc]
    have hconcat := Pieces.intercalate_append (ch '/') (List.cons_ne_nil [] stack)
      (List.cons_ne_nil c [])
    rwa [List.intercalate_singleton] at hconcat
  | false =>
    by_cases hnil : stack = []
    · simp [hnil, render]
    · have hne := (render_eq_nil_iff h).not.mpr hnil
      rw [if_pos (Or.inl hne), List.append_assoc]
      have hconcat := Pieces.intercalate_append (ch '/') hnil (List.cons_ne_nil c [])
      rwa [List.intercalate_singleton] at hconcat

/-! ## A component -/

lemma scanBack_none {p : UInt8 → Bool} {data : List UInt8} (h : ∀ d ∈ data, p d = false)
    (n : ℕ) : scanBack p data n = none := by
  induction n with
  | zero => rfl
  | succ pos ih =>
    have hany : data[pos]?.any p = false := by
      cases hd : data[pos]? with
      | none => rfl
      | some d => exact h d (List.mem_of_getElem? hd)
    rw [scanBack, if_neg (by simp [hany]), ih]

lemma scanBack_lt {p : UInt8 → Bool} {data : List UInt8} {n pos : ℕ}
    (h : scanBack p data n = some pos) : pos < n := by
  induction n with
  | zero => exact nomatch h
  | succ n ih =>
    rw [scanBack] at h
    split_ifs at h with hany
    · obtain rfl := Option.some.inj h
      exact Nat.lt_succ_self n
    · exact Nat.lt_succ_of_lt (ih h)

/-- The scan stops at the last place that it looks for. -/
lemma scanBack_append {p : UInt8 → Bool} {x : UInt8} (hx : p x = true) (pre : List UInt8)
    {rest : List UInt8} (h : ∀ d ∈ rest, p d = false) :
    scanBack p (pre ++ x :: rest) (pre ++ x :: rest).length = some pre.length := by
  have hscan : ∀ n ≤ rest.length,
      scanBack p (pre ++ x :: rest) (pre.length + 1 + n) = some pre.length := by
    intro n
    induction n with
    | zero =>
      intro _
      have hhere : (pre ++ x :: rest)[pre.length]?.any p = true := by
        rw [List.getElem?_append_right (Nat.le_refl _), Nat.sub_self]
        exact hx
      rw [Nat.add_zero, scanBack, if_pos hhere]
    | succ n ih =>
      intro hn
      have hget : (pre ++ x :: rest)[pre.length + 1 + n]? = rest[n]? := by
        rw [List.getElem?_append_right (by omega)]
        have hplace : pre.length + 1 + n - pre.length = n + 1 := by omega
        rw [hplace, List.getElem?_cons_succ]
      have hany : (pre ++ x :: rest)[pre.length + 1 + n]?.any p = false := by
        rw [hget]
        cases hd : rest[n]? with
        | none => rfl
        | some d => exact h d (List.mem_of_getElem? hd)
      rw [← Nat.add_assoc, scanBack, if_neg (by simp [hany]), ih (by omega)]
  have hlen : (pre ++ x :: rest).length = pre.length + 1 + rest.length := by
    rw [List.length_append, List.length_cons]
    omega
  rw [hlen, hscan rest.length (Nat.le_refl _)]

lemma same_iff {s literal : List UInt8} (h : 0 ∉ s) : same s literal = true ↔ s = literal := by
  rw [same, Texts.takeWhile_of_not_mem h, decide_eq_true_iff]

/-- The last component is taken away, unless it leads upwards itself. -/
lemma addChunk_up {d : List UInt8} (h : ∀ c ∈ stack ++ [d], IsChunk c) :
    addChunk absolute (render absolute (stack ++ [d])) (bytes "..") =
      if d = bytes ".." then render absolute (stack ++ [d] ++ [bytes ".."])
      else render absolute stack := by
  have hd := h d (List.mem_append_right _ List.mem_cons_self)
  have hstack : ∀ c ∈ stack, IsChunk c := fun c hc => h c (List.mem_append_left _ hc)
  have hsame : same d (bytes "..") = true ↔ d = bytes ".." := same_iff hd.noNul
  have hshow := @render_concat absolute stack hstack d
  rw [render_concat h]
  split_ifs at hshow with hbefore
  · have hne : render absolute (stack ++ [d]) ≠ [] := by simp [hshow]
    have hscan : scanBack isSlash (render absolute (stack ++ [d]))
        (render absolute (stack ++ [d])).length = some (render absolute stack).length := by
      rw [hshow, List.append_assoc, List.singleton_append]
      exact scanBack_append isSlash_slash _ hd.noSlash
    have hdrop : (render absolute (stack ++ [d])).drop ((render absolute stack).length + 1) = d := by
      rw [hshow]
      exact List.drop_left' (by simp)
    have htake : (render absolute (stack ++ [d])).take (render absolute stack).length
        = render absolute stack := by
      rw [hshow, List.append_assoc, List.take_left]
    rw [addChunk, if_pos ⟨rfl, hne⟩, hscan]
    simp only [hdrop, htake, hsame]
  · rw [not_or, not_not, Bool.not_eq_true] at hbefore
    obtain ⟨hempty, rfl⟩ := hbefore
    rw [hempty, List.nil_append] at hshow
    have hne : render false (stack ++ [d]) ≠ [] := by rw [hshow]; exact hd.ne_nil
    rw [addChunk, if_pos ⟨rfl, hne⟩, scanBack_none (by rw [hshow]; exact hd.noSlash), hempty]
    simp only [hshow, hsame]

/-- **A component** does to the text what it does to the stack. -/
lemma addChunk_render (h : ∀ c ∈ stack, IsChunk c) (hc : IsChunk c) :
    addChunk absolute (render absolute stack) c = render absolute (push stack c) := by
  by_cases hup : c = bytes ".."
  · subst hup
    rcases List.eq_nil_or_concat stack with rfl | ⟨stack, d, rfl⟩
    · rw [render_nil, addChunk, if_neg (by simp), if_neg (by decide)]
      cases absolute <;> rfl
    · rw [List.concat_eq_append] at h ⊢
      rw [addChunk_up h]
      split_ifs with hd
      · subst hd
        rw [push, Components.step_up_kept isNoName_up (by simp)]
      · rw [push, Components.step_up isNoName_up hd]
  · by_cases hdot : c = bytes "."
    · subst hdot
      rw [addChunk, if_neg fun h => hup h.1, if_pos rfl, push, Components.step_skip (by decide)]
    · have hname : isNoName c = false := by simp [isNoName, hc.ne_nil, hdot]
      rw [addChunk, if_neg fun h => hup h.1, if_neg hdot, push, Components.step_name hname hup,
        render_concat h]

/-! ## The loop -/

/-- Separators in front make empty components. -/
lemma foldl_push_dropWhile (s : List UInt8) (stack : List (List UInt8)) :
    (s.splitOnP isSlash).foldl push stack
      = ((s.dropWhile isSlash).splitOnP isSlash).foldl push stack := by
  induction s with
  | nil => rfl
  | cons c s ih =>
    by_cases hc : isSlash c = true
    · rw [List.dropWhile_cons_of_pos hc, List.splitOnP_cons_eq_if_modifyHead, if_pos hc,
        List.foldl_cons, push, Components.step_skip (by decide)]
      exact ih
    · rw [List.dropWhile_cons_of_neg hc]

/-- **The loop** does to the text what the fold does to the stack. -/
theorem simplifyFrom_render (absolute : Bool) {start : List UInt8} (hstart : 0 ∉ start) :
    ∀ {stack : List (List UInt8)}, (∀ c ∈ stack, IsChunk c) →
      simplifyFrom absolute (render absolute stack) start
        = render absolute ((start.splitOnP isSlash).foldl push stack) := by
  induction hn : start.length using Nat.strong_induction_on generalizing start with
  | _ n ih =>
    intro stack hstack
    have hnoSlash : ∀ d ∈ (start.dropWhile isSlash).takeWhile (fun c => !isSlash c),
        isSlash d = false := fun d hd => by simpa using List.mem_takeWhile_imp hd
    have hnoNul : 0 ∉ start.dropWhile isSlash :=
      fun h => hstart ((List.dropWhile_suffix isSlash).subset h)
    rw [simplifyFrom, foldl_push_dropWhile]
    split_ifs with hempty
    · -- nothing is left but separators
      have hnil : start.dropWhile isSlash = [] := by
        cases hs : start.dropWhile isSlash with
        | nil => rfl
        | cons d s =>
          have hd : isSlash d = false := not_of_dropWhile hs
          rw [hs, List.takeWhile_cons_of_pos (by simpa using hd)] at hempty
          exact nomatch hempty
      rw [hnil, List.splitOnP_nil, List.foldl_cons, push, Components.step_skip (by decide)]
      rfl
    · have hchunk : IsChunk ((start.dropWhile isSlash).takeWhile fun c => !isSlash c) :=
        ⟨hempty, hnoSlash, fun h => hnoNul ((List.takeWhile_prefix _).subset h)⟩
      have hpush : ∀ c ∈ push stack ((start.dropWhile isSlash).takeWhile fun c => !isSlash c),
          IsChunk c :=
        fun c hc => (Components.mem_step hc).elim (hstack c) fun h => h ▸ hchunk
      rw [addChunk_render hstack hchunk]
      rcases Pieces.splitOnP_eq_takeWhile isSlash (start.dropWhile isSlash) with
        ⟨hrest, hpieces⟩ | ⟨x, rest, hrest, hpieces⟩
      · rw [hpieces, List.foldl_cons, List.foldl_nil]
        split
        · rfl
        · rename_i h
          exact nomatch hrest.symm.trans h
      · rw [hpieces, List.foldl_cons]
        split
        · rename_i h
          exact nomatch hrest.symm.trans h
        · rename_i _ rest' h
          obtain ⟨-, rfl⟩ := List.cons.inj (hrest.symm.trans h)
          have hsuffix : x :: rest <:+ start := by
            rw [← hrest]
            exact (List.dropWhile_suffix _).trans (List.dropWhile_suffix _)
          have hlt : rest.length < n := hn ▸ Nat.lt_of_succ_le hsuffix.length_le
          have hnoNul' : 0 ∉ rest :=
            fun h => hstart (hsuffix.subset (List.mem_cons_of_mem x h))
          exact ih _ hlt hnoNul' rfl hpush

/-- The components that are kept of a path -/
def kept (path : List UInt8) : List (List UInt8) := stackFold (path.splitOnP isSlash)

/-- **The result** is the text of the components that are kept. -/
theorem simplifyPath_eq {path : List UInt8} (h : 0 ∉ path) :
    simplifyPath path = render (startsWithSlash path) (kept path) := by
  have hempty : ∀ c ∈ ([] : List (List UInt8)), IsChunk c := fun c hc => nomatch hc
  have hloop := simplifyFrom_render (startsWithSlash path) h hempty
  rwa [render_nil] at hloop

lemma kept_normal (path : List UInt8) : Components.Normal isNoName (bytes "..") (kept path) :=
  Components.normalize_normal _

lemma kept_chunks {path : List UInt8} (h : 0 ∉ path) : ∀ c ∈ kept path, IsChunk c := by
  intro c hc
  obtain ⟨_, _, _, _, hnames⟩ := kept_normal path
  rcases Components.mem_foldl_step hc with hc' | hc'
  · exact nomatch hc'
  · obtain ⟨hnone, hsub⟩ := Pieces.mem_splitOnP hc'
    refine ⟨?_, hnone, fun hnul => h (hsub hnul)⟩
    rintro rfl
    exact absurd (hnames [] hc) (by decide)

/-! ## The text of the components -/

/-- Components are found again in their text. -/
lemma splitOnP_render {sep : UInt8 → Bool} (hsep : sep (ch '/') = true)
    (hne : absolute = true ∨ stack ≠ []) (h : ∀ c ∈ stack, ∀ d ∈ c, sep d = false) :
    (render absolute stack).splitOnP sep = if absolute then [] :: stack else stack := by
  cases absolute with
  | false => exact Pieces.splitOnP_intercalate hsep (hne.resolve_left Bool.false_ne_true) h
  | true =>
    refine Pieces.splitOnP_intercalate hsep (List.cons_ne_nil _ _) fun c hc => ?_
    rcases List.mem_cons.mp hc with rfl | hc
    · exact fun d hd => nomatch hd
    · exact h c hc

lemma head_render_cons (hc : c ≠ []) (stack : List (List UInt8)) :
    (render absolute (c :: stack)).head? = if absolute then some (ch '/') else c.head? := by
  obtain ⟨d, t, rfl⟩ := List.exists_cons_of_ne_nil hc
  cases absolute with
  | true => simp [render, List.intercalate_cons_of_ne_nil]
  | false =>
    by_cases hnil : stack = []
    · simp [render, hnil]
    · simp [render, List.intercalate_cons_of_ne_nil hnil]

/-- A text begins with a separator if its path is absolute and has components, and this is a slash. -/
lemma head_render (h : ∀ c ∈ stack, IsChunk c) : startsWithSlash (render absolute stack)
      = (absolute && stack ≠ []) ∧
    ((render absolute stack).head? = some (ch '/') ↔ absolute = true ∧ stack ≠ []) := by
  cases stack with
  | nil => simp [render_nil, startsWithSlash]
  | cons c stack =>
    have hc := h c List.mem_cons_self
    rw [startsWithSlash, head_render_cons hc.ne_nil]
    cases absolute with
    | true => simp [isSlash_slash]
    | false =>
      obtain ⟨d, t, rfl⟩ := List.exists_cons_of_ne_nil hc.ne_nil
      have hslash := hc.noSlash d List.mem_cons_self
      have hother : d ≠ ch '/' := by
        rintro rfl
        exact absurd hslash (by decide)
      simp [hslash, hother]

/-! ## What the result is -/

lemma noNul_render (h : ∀ c ∈ stack, IsChunk c) : 0 ∉ render absolute stack := by
  intro hnul
  rcases Pieces.mem_intercalate hnul with hslash | ⟨c, hc, hmem⟩
  · exact absurd hslash (by decide)
  · cases absolute with
    | false => exact (h c hc).noNul hmem
    | true =>
      rcases List.mem_cons.mp hc with rfl | hc
      · exact nomatch hmem
      · exact (h c hc).noNul hmem

/-- A text is simple if its stack is normal. -/
lemma simplifyPath_render (h : ∀ c ∈ stack, IsChunk c)
    (hnormal : Components.Normal isNoName (bytes "..") stack) :
    simplifyPath (render absolute stack) = render absolute stack := by
  by_cases hnil : stack = []
  · rw [hnil, render_nil, simplifyPath, simplifyFrom]
    rfl
  · have hsplit := @splitOnP_render absolute stack isSlash isSlash_slash (Or.inr hnil)
      fun c hc => (h c hc).noSlash
    have hkept : kept (render absolute stack) = stack := by
      rw [kept, hsplit]
      cases absolute with
      | false => exact Components.normalize_of_normal isNoName_up hnormal
      | true => exact Components.normalize_of_normal isNoName_up hnormal
    have habsolute : startsWithSlash (render absolute stack) = absolute := by
      rw [(head_render h).1, decide_eq_true hnil, Bool.and_true]
    rw [simplifyPath_eq (noNul_render h), hkept, habsolute]

/-- The components of the result -/
lemma splitOn_simplifyPath {path : List UInt8} (h : 0 ∉ path) :
    ((simplifyPath path).splitOn (ch '/')).filter (· ≠ []) = kept path := by
  have hchunks := kept_chunks h
  rw [simplifyPath_eq h]
  by_cases hnil : kept path = []
  · rw [hnil, render_nil]
    rfl
  · have hslash : ∀ c ∈ kept path, ∀ d ∈ c, (d == ch '/') = false := by
      intro c hc d hd
      have hno := (hchunks c hc).noSlash d hd
      rw [beq_eq_false_iff_ne]
      rintro rfl
      exact absurd hno (by decide)
    have hne : ∀ c ∈ kept path, decide (c ≠ []) = true :=
      fun c hc => decide_eq_true (hchunks c hc).ne_nil
    have hsplit := @splitOnP_render (startsWithSlash path) _ (· == ch '/')
      (beq_self_eq_true _) (Or.inr hnil) hslash
    rw [List.splitOn_eq_splitOnP, hsplit]
    cases startsWithSlash path with
    | false => exact List.filter_eq_self.mpr hne
    | true =>
      rw [if_pos rfl, List.filter_cons_of_neg (by simp)]
      exact List.filter_eq_self.mpr hne

/-- **The components** of the result are those that the stack keeps, and to simplify it again changes
    nothing. -/
theorem simplifyPath_components (path : CString) :
    ((simplifyPath path.bytes).splitOn (ch '/')).filter (· ≠ [])
        = stackFold (path.bytes.splitOnP isSlash) ∧
      simplifyPath (simplifyPath path.bytes) = simplifyPath path.bytes := by
  refine ⟨splitOn_simplifyPath path.noNul, ?_⟩
  rw [simplifyPath_eq path.noNul,
    simplifyPath_render (kept_chunks path.noNul) (kept_normal path.bytes)]

/-- **An absolute path** stays absolute, and a relative one relative, unless it is absolute and each of
    its names is taken away while nothing else is kept. -/
theorem absolute_iff (path : CString) :
    ((startsWithSlash path.bytes = true → (simplifyPath path.bytes).head? = some (ch '/')) ∧
      (startsWithSlash path.bytes = false → (simplifyPath path.bytes).head? ≠ some (ch '/'))) ↔
    (startsWithSlash path.bytes = true →
      Components.level isNoName (bytes "..") 0 (path.bytes.splitOnP isSlash) ≠ some 0) := by
  rw [simplifyPath_eq path.noNul, ne_eq, ne_eq, (head_render (kept_chunks path.noNul)).2,
    ← Components.normalize_eq_nil_iff isNoName_up]
  cases startsWithSlash path.bytes with
  | true => simp [kept, stackFold]
  | false => simp

/-- A name and the way back to the root -/
def upToRoot : CString := ⟨bytes "/usr/..", by decide⟩

/-- Of the root nothing is left, not even the slash. -/
theorem root_lost : ¬ ∀ path : CString,
    (startsWithSlash path.bytes = true → (simplifyPath path.bytes).head? = some (ch '/')) ∧
      (startsWithSlash path.bytes = false →
        (simplifyPath path.bytes).head? ≠ some (ch '/')) := by
  intro h
  have hroot := (h upToRoot).1 (by decide)
  rw [simplifyPath_eq upToRoot.noNul] at hroot
  exact absurd hroot (by decide)

end Nstd.File
