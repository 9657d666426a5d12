import Nstd.File.SimplifyPath

/-!
# `File::getRelativePath`

A directory above both paths is looked for by taking away components from the end of a text.

* `isAbsolutePath`, `compare`, `relativeLoop`, `getRelativePath` — the code.
* `prefix_dirText` — the text of a directory is in front of that of a path exactly if the path leads
  through it.
* `relativeLoop_cases` — the loop finds a directory above both paths, or there is none.
* **`relativePath_iff`** — when the result leads from one path to the other; `no_way_to_root`.
-/

namespace Nstd.File

/-! ## Functions -/

/-- `isAbsolutePath` -/
def isAbsolutePath (path : List UInt8) : Bool :=
  startsWithSlash path ∨
    (2 < path.length ∧ path[1]? = some (ch ':') ∧ path[2]?.any isSlash = true)

/-- `String::compare(s1, s2, len)` -/
def compare : ℕ → List UInt8 → List UInt8 → ℤ
  | 0, _, _ => 0
  | len + 1, s1, s2 =>
    let c1 := s1.headD 0
    let c2 := s2.headD 0
    if c1 = 0 ∨ c1 ≠ c2 then c1.toNat - c2.toNat else compare len s1.tail s2.tail

/-- `findLast('/')` -/
def findLastSlash (data : List UInt8) : Option ℕ := scanBack (· = ch '/') data data.length

/-- The loop of `getRelativePath`, with `simFrom` and `result` as they are before a round -/
def relativeLoop (simTo simFrom result : List UInt8) : List UInt8 :=
  if _hlen : simFrom = [] then []
  else
    match findLastSlash simFrom.dropLast with
    | none => []
    | some newEnd =>
      let next := simFrom.dropLast.take (newEnd + 1)
      if compare next.length simTo next = 0 then result ++ simTo.drop next.length
      else relativeLoop simTo next (result ++ bytes "../")
  termination_by simFrom.length
  decreasing_by
    have hpos := List.length_pos_of_ne_nil _hlen
    rw [List.length_take, List.length_dropLast]
    omega

/-- `getRelativePath` -/
def getRelativePath (origin target : List UInt8) : List UInt8 :=
  let simFrom := simplifyPath origin
  let simTo := simplifyPath target
  if simFrom = simTo then bytes "."
  else
    let simFrom := simFrom ++ [ch '/']
    if compare simFrom.length simTo simFrom = 0 then simTo.drop simFrom.length
    else relativeLoop simTo simFrom (bytes "../")

/-! ## Directories -/

variable {a b : Bool} {s t : List (List UInt8)}

lemma compare_eq_zero_iff {pre : List UInt8} (h : 0 ∉ pre) (text : List UInt8) :
    compare pre.length text pre = 0 ↔ pre <+: text := by
  induction pre generalizing text with
  | nil => simp [compare]
  | cons c pre ih =>
    rw [List.mem_cons, not_or] at h
    cases text with
    | nil =>
      rw [List.length_cons, compare, List.headD_nil, if_pos (Or.inl rfl)]
      refine iff_of_false (fun hsub => h.1 (UInt8.toNat_inj.mp ?_)) (by simp)
      have hzero : ((0 : UInt8).toNat : ℤ) - c.toNat = 0 := hsub
      omega
    | cons d text =>
      rw [List.length_cons, compare, List.headD_cons, List.headD_cons, List.tail_cons,
        List.tail_cons, List.cons_prefix_cons]
      by_cases hcd : c = d
      · subst hcd
        rw [if_neg (by simpa using Ne.symm h.1), ih h.2]
        simp
      · rw [if_pos (Or.inr (Ne.symm hcd))]
        refine iff_of_false (fun hsub => hcd (UInt8.toNat_inj.mp ?_)) fun hp => hcd hp.1
        omega

/-- The text of a directory, with a slash at the end -/
def dirText (absolute : Bool) (stack : List (List UInt8)) : List UInt8 :=
  render absolute stack ++ [ch '/']

/-- A path through a directory -/
lemma render_append {r : List (List UInt8)} (hr : r ≠ []) (hs : a = true ∨ s ≠ []) :
    render a (s ++ r) = dirText a s ++ render false r := by
  have hne : (if a then [] :: s else s) ≠ [] := by
    cases a with
    | true => simp
    | false => simpa using hs
  have happend : (if a then [] :: (s ++ r) else s ++ r) = (if a then [] :: s else s) ++ r := by
    cases a <;> rfl
  rw [dirText, render, render, render, happend, Pieces.intercalate_append (ch '/') hne hr]
  simp

/-- **The text of a directory** is in front of that of a path exactly if the path leads through it. -/
theorem prefix_dirText (hs : ∀ c ∈ s, IsChunk c) (ht : ∀ c ∈ t, IsChunk c) (htop : a = true ∨ s ≠ []) :
    dirText a s <+: render b t ↔ a = b ∧ ∃ r, r ≠ [] ∧ t = s ++ r := by
  constructor
  · rintro ⟨rest, hrest⟩
    have htnil : t ≠ [] := by
      rintro rfl
      rw [render_nil, dirText] at hrest
      simp at hrest
    -- both texts are split at their slashes
    have hsplit := @splitOnP_render b t isSlash isSlash_slash (Or.inr htnil)
      fun c hc => (ht c hc).noSlash
    rw [← hrest, dirText, List.append_assoc, List.singleton_append,
      List.splitOnP_append_cons _ _ isSlash_slash,
      splitOnP_render isSlash_slash htop fun c hc => (hs c hc).noSlash] at hsplit
    cases a with
    | true =>
      cases b with
      | true => exact ⟨rfl, _, List.splitOnP_ne_nil _ _, (List.cons.inj hsplit).2.symm⟩
      | false =>
        have hempty : [] ∈ t := by
          rw [if_neg Bool.false_ne_true] at hsplit
          rw [← hsplit]
          exact List.mem_cons_self
        exact absurd rfl (ht [] hempty).ne_nil
    | false =>
      cases b with
      | true =>
        obtain ⟨c, s, rfl⟩ := List.exists_cons_of_ne_nil (htop.resolve_left Bool.false_ne_true)
        exact absurd (List.cons.inj hsplit).1 (hs c List.mem_cons_self).ne_nil
      | false => exact ⟨rfl, _, List.splitOnP_ne_nil _ _, hsplit.symm⟩
  · rintro ⟨rfl, r, hr, rfl⟩
    rw [render_append hr htop]
    exact List.prefix_append _ _

lemma noNul_dirText (hs : ∀ c ∈ s, IsChunk c) : 0 ∉ dirText a s := by
  rw [dirText, List.mem_append, not_or]
  exact ⟨noNul_render hs, by decide⟩

lemma compare_dirText (hs : ∀ c ∈ s, IsChunk c) (text : List UInt8) :
    compare (dirText a s).length text (dirText a s) = 0 ↔ dirText a s <+: text :=
  compare_eq_zero_iff (noNul_dirText hs) text

/-! ## The loop -/

/-- The way up -/
def ups (n : ℕ) : List UInt8 := (List.replicate n (bytes "../")).flatten

lemma ups_succ (n : ℕ) : ups (n + 1) = bytes "../" ++ ups n := by
  rw [ups, List.replicate_succ, List.flatten_cons, ups]

lemma ups_append (n : ℕ) : ups n ++ bytes "../" = ups (n + 1) := by
  rw [ups, ups, List.replicate_succ', List.flatten_append, List.flatten_singleton]

lemma dropLast_dirText (a : Bool) (s : List (List UInt8)) : (dirText a s).dropLast = render a s :=
  List.dropLast_concat

/-- Nothing is above the root. -/
lemma relativeLoop_root (a : Bool) (simTo result : List UInt8) :
    relativeLoop simTo (dirText a []) result = [] := by
  have hlast : findLastSlash (dirText a []).dropLast = none := by
    rw [dropLast_dirText, render_nil]
    rfl
  rw [relativeLoop, hlast]
  exact dite_eq_ite.trans (ite_self _)

/-- From a directory, the loop goes on in the one above it. -/
lemma relativeLoop_above {c : List UInt8} (hs : ∀ d ∈ s ++ [c], IsChunk d)
    (htop : a = true ∨ s ≠ []) (simTo result : List UInt8) :
    relativeLoop simTo (dirText a (s ++ [c])) result =
      if dirText a s <+: simTo then result ++ simTo.drop (dirText a s).length
      else relativeLoop simTo (dirText a s) (result ++ bytes "../") := by
  have hc := hs c (List.mem_append_right _ List.mem_cons_self)
  have hs' : ∀ d ∈ s, IsChunk d := fun d hd => hs d (List.mem_append_left _ hd)
  have hshow : render a (s ++ [c]) = render a s ++ ch '/' :: c := by
    rw [render_append (List.cons_ne_nil c []) htop, dirText, List.append_assoc]
    simp [render]
  have hother : ∀ d ∈ c, decide (d = ch '/') = false := by
    intro d hd
    refine decide_eq_false ?_
    rintro rfl
    exact absurd (hc.noSlash _ hd) (by decide)
  have hlast : findLastSlash (dirText a (s ++ [c])).dropLast = some (render a s).length := by
    rw [dropLast_dirText, hshow]
    exact scanBack_append (decide_eq_true rfl) _ hother
  have htake : (dirText a (s ++ [c])).dropLast.take ((render a s).length + 1) = dirText a s := by
    rw [dropLast_dirText, hshow, List.append_cons]
    exact List.take_left' (by simp)
  rw [relativeLoop, dif_neg (by simp [dirText]), hlast]
  simp only [htake, compare_dirText hs']

/-- A drive has nothing above it. -/
lemma relativeLoop_drive {c : List UInt8} (hc : IsChunk c) (simTo result : List UInt8) :
    relativeLoop simTo (dirText false [c]) result = [] := by
  have hother : ∀ d ∈ c, decide (d = ch '/') = false := by
    intro d hd
    refine decide_eq_false ?_
    rintro rfl
    exact absurd (hc.noSlash _ hd) (by decide)
  have hlast : findLastSlash (dirText false [c]).dropLast = none := by
    rw [dropLast_dirText]
    exact scanBack_none (by simpa [render] using hother) _
  rw [relativeLoop, hlast]
  exact dite_eq_ite.trans (ite_self _)

/-- **The loop** finds a directory above both paths, or there is none. -/
theorem relativeLoop_cases (hs : ∀ c ∈ s, IsChunk c) (ht : ∀ c ∈ t, IsChunk c) (m : ℕ) :
    (∃ top names r, (a = true ∨ top ≠ []) ∧ names ≠ [] ∧ r ≠ [] ∧ a = b ∧ s = top ++ names ∧
      t = top ++ r ∧ relativeLoop (render b t) (dirText a s) (ups (m + 1)) =
        ups (m + names.length) ++ render false r) ∨
    (relativeLoop (render b t) (dirText a s) (ups (m + 1)) = [] ∧
      ∀ top, (a = true ∨ top ≠ []) → top <+: s → top ≠ s → top <+: t → top ≠ t → a ≠ b) := by
  induction s using List.reverseRecOn generalizing m with
  | nil =>
    refine Or.inr ⟨relativeLoop_root a _ _, fun top _ hle hne => ?_⟩
    exact absurd (List.prefix_nil.mp hle) hne
  | append_singleton s c ih =>
    have hs' : ∀ d ∈ s, IsChunk d := fun d hd => hs d (List.mem_append_left _ hd)
    by_cases htop : a = true ∨ s ≠ []
    · rw [relativeLoop_above hs htop]
      by_cases hhere : dirText a s <+: render b t
      · obtain ⟨rfl, r, hr, rfl⟩ := (prefix_dirText hs' ht htop).mp hhere
        refine Or.inl ⟨s, [c], r, htop, List.cons_ne_nil _ _, hr, rfl, rfl, rfl, ?_⟩
        rw [if_pos hhere, render_append hr htop, List.drop_left]
        rfl
      · rw [if_neg hhere, ups_append]
        rcases ih hs' (m + 1) with ⟨top, names, r, htop', hnames, hr, hab, rfl, hrt, hfound⟩ |
          ⟨hnone, hall⟩
        · refine Or.inl ⟨top, names ++ [c], r, htop', by simp, hr, hab,
            List.append_assoc _ _ _, hrt, ?_⟩
          rw [hfound, List.length_append, List.length_singleton, Nat.add_right_comm,
            Nat.add_assoc]
        · refine Or.inr ⟨hnone, fun top htop' hle hne hle' hne' hab => ?_⟩
          rcases List.prefix_concat_iff.mp hle with rfl | hle
          · exact hne rfl
          · by_cases hsame : top = s
            · subst hsame
              obtain ⟨r, rfl⟩ := hle'
              refine hhere ((prefix_dirText hs' ht htop).mpr ⟨hab, r, ?_, rfl⟩)
              rintro rfl
              exact hne' (List.append_nil _).symm
            · exact hall top htop' hle hsame hle' hne' hab
    · rw [not_or, not_not, Bool.not_eq_true] at htop
      obtain ⟨rfl, rfl⟩ := htop
      refine Or.inr ⟨relativeLoop_drive (hs c List.mem_cons_self) _ _, ?_⟩
      intro top htop' hle hne
      rcases List.prefix_concat_iff.mp hle with rfl | hle
      · exact absurd rfl hne
      · exact absurd (List.prefix_nil.mp hle) (htop'.resolve_left Bool.false_ne_true)

/-! ## Following the result -/

lemma isChunk_up : IsChunk (bytes "..") :=
  ⟨by decide, forall_mem_of_all rfl, by decide⟩

/-- A path that goes up first -/
lemma ups_render (n : ℕ) {r : List (List UInt8)} (hr : r ≠ []) :
    ups n ++ render false r = render false (List.replicate n (bytes "..") ++ r) := by
  induction n with
  | zero => rfl
  | succ n ih =>
    rw [ups_succ, List.append_assoc, ih, List.replicate_succ, List.cons_append, render, render,
      if_neg Bool.false_ne_true, if_neg Bool.false_ne_true,
      List.intercalate_cons_of_ne_nil (List.append_ne_nil_of_right_ne_nil _ hr)]
    rfl

/-- From a path on, a relative one is followed component by component. -/
lemma simplifyPath_append {origin rel : List UInt8} (ho : 0 ∉ origin) (hne : origin ≠ [])
    (hrel : 0 ∉ rel) : simplifyPath (origin ++ ch '/' :: rel) =
      render (startsWithSlash origin) ((rel.splitOnP isSlash).foldl push (kept origin)) := by
  have hnul : 0 ∉ origin ++ ch '/' :: rel := by
    rw [List.mem_append, List.mem_cons, not_or, not_or]
    exact ⟨ho, by decide, hrel⟩
  obtain ⟨d, t, rfl⟩ := List.exists_cons_of_ne_nil hne
  rw [simplifyPath_eq hnul, kept, List.splitOnP_append_cons _ _ isSlash_slash, stackFold,
    Components.normalize, List.foldl_append]
  rfl

/-- As many steps up as there are names, and then down -/
lemma foldl_ups {top names r : List (List UInt8)} (hnames : bytes ".." ∉ names)
    (hr : ∀ c ∈ r, IsChunk c) (hnodot : ∀ c ∈ r, isNoName c = false) (hup : bytes ".." ∉ r)
    (hne : r ≠ []) : ((ups names.length ++ render false r).splitOnP isSlash).foldl push
      (top ++ names) = top ++ r := by
  have hchunks : ∀ c ∈ List.replicate names.length (bytes "..") ++ r, ∀ d ∈ c,
      isSlash d = false := by
    intro c hc
    rcases List.mem_append.mp hc with hc | hc
    · rw [List.eq_of_mem_replicate hc]
      exact isChunk_up.noSlash
    · exact (hr c hc).noSlash
  rw [ups_render _ hne, splitOnP_render isSlash_slash
    (Or.inr (List.append_ne_nil_of_right_ne_nil _ hne)) hchunks, if_neg Bool.false_ne_true,
    List.foldl_append, push, Components.foldl_step_up isNoName_up hnames,
    Components.foldl_step_names hnodot hup]

/-- A component that is a drive -/
def IsDrive (c : List UInt8) : Prop := ∃ x, c = [x, ch ':']

lemma isAbsolutePath_iff {path : List UInt8} (h : startsWithSlash path = false) :
    isAbsolutePath path = true ↔ ∃ x d rest, path = x :: ch ':' :: d :: rest ∧ isSlash d = true := by
  constructor
  · intro habs
    rw [isAbsolutePath, decide_eq_true_iff, h] at habs
    obtain ⟨hlen, hcolon, hslash⟩ := habs.resolve_left Bool.false_ne_true
    rcases path with - | ⟨x, - | ⟨y, - | ⟨d, rest⟩⟩⟩
    · exact absurd hlen (by simp)
    · exact absurd hlen (by simp)
    · exact absurd hlen (by simp)
    · obtain rfl := Option.some.inj hcolon
      exact ⟨x, d, rest, rfl, hslash⟩
  · rintro ⟨x, d, rest, rfl, hd⟩
    rw [isAbsolutePath, decide_eq_true_iff]
    exact Or.inr ⟨by simp, rfl, hd⟩

/-- The way down is absolute only if it begins with a drive. -/
lemma isAbsolutePath_render {r : List (List UInt8)} (hr : ∀ c ∈ r, IsChunk c) :
    isAbsolutePath (render false r) = true ↔
      ∃ drive rest, IsDrive drive ∧ rest ≠ [] ∧ r = drive :: rest := by
  have hstart : startsWithSlash (render false r) = false := by
    rw [(head_render hr).1, Bool.false_and]
  rw [isAbsolutePath_iff hstart]
  constructor
  · rintro ⟨x, d, text, htext, hd⟩
    rcases r with - | ⟨c, rest⟩
    · exact absurd htext (by simp [render_nil])
    · have hc := (hr c List.mem_cons_self).noSlash
      by_cases hrest : rest = []
      · have hmem : d ∈ c := by
          rw [hrest, render, if_neg Bool.false_ne_true, List.intercalate_singleton] at htext
          rw [htext]
          simp
        exact absurd hd (by simp [hc d hmem])
      · rw [render, if_neg Bool.false_ne_true, List.intercalate_cons_of_ne_nil hrest,
          List.append_assoc] at htext
        rcases c with - | ⟨y, - | ⟨z, - | ⟨e, c⟩⟩⟩
        · exact absurd rfl (hr [] List.mem_cons_self).ne_nil
        · exact absurd (List.cons.inj (List.cons.inj htext).2).1 (by decide)
        · obtain rfl := (List.cons.inj (List.cons.inj htext).2).1
          exact ⟨_, rest, ⟨y, rfl⟩, hrest, rfl⟩
        · obtain rfl := (List.cons.inj (List.cons.inj (List.cons.inj htext).2).2).1
          exact absurd hd (by simp [hc e (by simp)])
  · rintro ⟨drive, rest, ⟨x, rfl⟩, hrest, rfl⟩
    refine ⟨x, ch '/', render false rest, ?_, isSlash_slash⟩
    rw [render, if_neg Bool.false_ne_true, List.intercalate_cons_of_ne_nil hrest]
    rfl

/-- The way up is not absolute. -/
lemma isAbsolutePath_ups (n : ℕ) (text : List UInt8) : isAbsolutePath (ups (n + 1) ++ text) = false := by
  have hstart : startsWithSlash (ups (n + 1) ++ text) = false := by
    rw [ups_succ, List.append_assoc]
    rfl
  rw [Bool.eq_false_iff, ne_eq, isAbsolutePath_iff hstart, ups_succ, List.append_assoc]
  rintro ⟨x, d, rest, htext, -⟩
  exact absurd (List.cons.inj (List.cons.inj htext).2).1 (by decide)

/-! ## The result -/

/-- From one path a way leads to the other: they are the same, or have the same root, which the other
    is not itself, and what is below the first one does not look like a drive. -/
def HasWay (origin target : List UInt8) : Prop :=
  simplifyPath origin = simplifyPath target ∨
    (startsWithSlash origin = startsWithSlash target ∧
      (∃ root, root.length = (if startsWithSlash origin then 0 else 1) ∧ root <+: kept origin ∧
        root <+: kept target ∧ root ≠ kept target) ∧
      ¬ ∃ drive rest, IsDrive drive ∧ rest ≠ [] ∧ kept target = kept origin ++ drive :: rest)

/-- A directory above both paths, and so their root -/
lemma exists_root {top r : List (List UInt8)} (htop : a = true ∨ top ≠ []) (hr : r ≠ [])
    (names : List (List UInt8)) : ∃ root, root.length = (if a then 0 else 1) ∧
      root <+: top ++ names ∧ root <+: top ++ r ∧ root ≠ top ++ r := by
  have hle : (if a then 0 else 1) ≤ top.length := by
    cases a with
    | true => exact Nat.zero_le _
    | false => exact List.length_pos_iff.mpr (htop.resolve_left Bool.false_ne_true)
  have hroot : top.take (if a then 0 else 1) <+: top := List.take_prefix _ _
  refine ⟨top.take (if a then 0 else 1), List.length_take_of_le hle,
    hroot.trans (List.prefix_append _ _), hroot.trans (List.prefix_append _ _), fun h => ?_⟩
  have hlen := congrArg List.length h
  have hpos := List.length_pos_iff.mpr hr
  rw [List.length_take_of_le hle, List.length_append] at hlen
  omega

section

variable {origin target : List UInt8}

lemma up_notMem_kept (h : 0 ∉ origin)
    (hup : bytes ".." ∉ (simplifyPath origin).splitOn (ch '/')) : bytes ".." ∉ kept origin := by
  intro hmem
  rw [← splitOn_simplifyPath h] at hmem
  exact hup (List.mem_of_mem_filter hmem)

lemma isNoName_of_kept {c : List UInt8} (hc : c ∈ kept origin) : isNoName c = false := by
  obtain ⟨_, _, _, _, hnames⟩ := kept_normal origin
  exact hnames c hc

/-- To stay leads to the same place. -/
lemma simplifyPath_stay (ho : 0 ∉ origin) (hne : origin ≠ []) {rel : List UInt8}
    (hrel : rel = [] ∨ rel = bytes ".") :
    simplifyPath (origin ++ ch '/' :: rel) = simplifyPath origin := by
  rw [simplifyPath_eq ho]
  rcases hrel with rfl | rfl
  · rw [simplifyPath_append ho hne (by decide)]
    rfl
  · rw [simplifyPath_append ho hne (by decide)]
    rfl

/-- A way up and down leads to the other path. -/
lemma simplifyPath_way (ho : 0 ∉ origin) (ht : 0 ∉ target) (hne : origin ≠ [])
    {top names r : List (List UInt8)} (hr : r ≠ [])
    (hsame : startsWithSlash origin = startsWithSlash target)
    (hups : bytes ".." ∉ kept origin) (hups' : bytes ".." ∉ kept target)
    (horigin : kept origin = top ++ names) (htarget : kept target = top ++ r) :
    simplifyPath (origin ++ ch '/' :: (ups names.length ++ render false r))
      = simplifyPath target := by
  rw [horigin, List.mem_append, not_or] at hups
  rw [htarget, List.mem_append, not_or] at hups'
  have hchunks : ∀ c ∈ r, IsChunk c := fun c hc =>
    kept_chunks ht c (by rw [htarget]; exact List.mem_append_right _ hc)
  have hnames : ∀ c ∈ r, isNoName c = false := fun c hc =>
    @isNoName_of_kept target _ (by rw [htarget]; exact List.mem_append_right _ hc)
  have hnul : 0 ∉ ups names.length ++ render false r := by
    rw [ups_render _ hr]
    refine noNul_render fun c hc => ?_
    rcases List.mem_append.mp hc with hc | hc
    · rw [List.eq_of_mem_replicate hc]
      exact isChunk_up
    · exact hchunks c hc
  rw [simplifyPath_append ho hne hnul, horigin, foldl_ups hups.2 hchunks hnames hups'.2 hr,
    simplifyPath_eq ht, hsame, htarget]

/-- The result is relative and leads to the other path. -/
def Leads (origin target : List UInt8) : Prop :=
  isAbsolutePath (getRelativePath origin target) = false ∧
    simplifyPath (origin ++ ch '/' :: getRelativePath origin target) = simplifyPath target

/-- The paths differ, and the result is found below the first one or by the loop. -/
lemma getRelativePath_of_ne (ho : 0 ∉ origin) (h : simplifyPath origin ≠ simplifyPath target) :
    getRelativePath origin target =
      if dirText (startsWithSlash origin) (kept origin) <+: simplifyPath target then
        (simplifyPath target).drop (dirText (startsWithSlash origin) (kept origin)).length
      else relativeLoop (simplifyPath target) (dirText (startsWithSlash origin) (kept origin))
        (bytes "../") := by
  have hdir : simplifyPath origin ++ [ch '/'] = dirText (startsWithSlash origin) (kept origin) := by
    rw [simplifyPath_eq ho, dirText]
  rw [getRelativePath, if_neg h]
  simp only [hdir, compare_dirText (kept_chunks ho)]

lemma leads_of_eq (ho : 0 ∉ origin) (hne : origin ≠ [])
    (h : simplifyPath origin = simplifyPath target) : Leads origin target := by
  have hresult : getRelativePath origin target = bytes "." := by rw [getRelativePath, if_pos h]
  rw [Leads, hresult, ← h]
  exact ⟨by decide, simplifyPath_stay ho hne (Or.inr rfl)⟩

/-- Nothing leads to a path with another root. -/
lemma not_leads_of_nil (ho : 0 ∉ origin) (hne : origin ≠ [])
    (h : simplifyPath origin ≠ simplifyPath target) (hnil : getRelativePath origin target = []) :
    ¬ Leads origin target := by
  rintro ⟨-, hleads⟩
  rw [hnil, simplifyPath_stay ho hne (Or.inl rfl)] at hleads
  exact h hleads

/-- **The way** from a path to one below it -/
lemma leads_iff_of_below (ho : 0 ∉ origin) (ht : 0 ∉ target) (hne : origin ≠ [])
    (h : simplifyPath origin ≠ simplifyPath target)
    (hups : bytes ".." ∉ kept origin) (hups' : bytes ".." ∉ kept target)
    (htop : startsWithSlash origin = true ∨ kept origin ≠ [])
    (hbelow : dirText (startsWithSlash origin) (kept origin) <+: simplifyPath target) :
    Leads origin target ↔ HasWay origin target := by
  have hresult := getRelativePath_of_ne ho h
  rw [if_pos hbelow] at hresult
  rw [simplifyPath_eq ht] at hbelow
  obtain ⟨hsame, r, hr, hkept⟩ := (prefix_dirText (kept_chunks ho) (kept_chunks ht) htop).mp hbelow
  have hchunks : ∀ c ∈ r, IsChunk c := fun c hc =>
    kept_chunks ht c (by rw [hkept]; exact List.mem_append_right _ hc)
  rw [simplifyPath_eq ht, ← hsame, hkept, render_append hr htop, List.drop_left] at hresult
  have hway := @simplifyPath_way _ _ ho ht hne _ [] _ hr hsame hups hups'
    (List.append_nil _).symm hkept
  have hroot := exists_root htop hr []
  rw [List.append_nil, ← hkept] at hroot
  have hdrive : (∃ drive rest, IsDrive drive ∧ rest ≠ [] ∧
      kept target = kept origin ++ drive :: rest) ↔ isAbsolutePath (render false r) = true := by
    rw [isAbsolutePath_render hchunks, hkept]
    simp only [List.append_cancel_left_eq]
  rw [Leads, hresult, HasWay, hdrive, Bool.not_eq_true]
  exact ⟨fun hleads => Or.inr ⟨hsame, hroot, hleads.1⟩,
    fun hhas => ⟨(hhas.resolve_left h).2.2, hway⟩⟩

/-- **The way** that the loop finds -/
lemma leads_iff_of_not_below (ho : 0 ∉ origin) (ht : 0 ∉ target) (hne : origin ≠ [])
    (h : simplifyPath origin ≠ simplifyPath target)
    (hups : bytes ".." ∉ kept origin) (hups' : bytes ".." ∉ kept target)
    (htop : startsWithSlash origin = true ∨ kept origin ≠ [])
    (hbelow : ¬ dirText (startsWithSlash origin) (kept origin) <+: simplifyPath target) :
    Leads origin target ↔ HasWay origin target := by
  have hresult := getRelativePath_of_ne ho h
  rw [if_neg hbelow] at hresult
  rw [simplifyPath_eq ht] at hbelow hresult
  have hbelow' := mt (prefix_dirText (kept_chunks ho) (kept_chunks ht) htop).mpr hbelow
  rcases @relativeLoop_cases _ (startsWithSlash target) _ _ (kept_chunks ho) (kept_chunks ht) 0 with
    ⟨top, names, r, htop', hnames, hr, hsame, horigin, htarget, hfound⟩ | ⟨hnone, hall⟩
  · have hup : names.length = names.length - 1 + 1 := by
      have := List.length_pos_of_ne_nil hnames
      omega
    have hroot := exists_root htop' hr names
    rw [← horigin, ← htarget] at hroot
    simp only [Nat.zero_add] at hfound
    refine iff_of_true ?_ (Or.inr ⟨hsame, hroot, ?_⟩)
    · rw [Leads, hresult.trans hfound]
      refine ⟨?_, simplifyPath_way ho ht hne hr hsame hups hups' horigin htarget⟩
      rw [hup]
      exact isAbsolutePath_ups _ _
    · rintro ⟨drive, rest, -, -, hdrive⟩
      exact hbelow' ⟨hsame, drive :: rest, List.cons_ne_nil _ _, hdrive⟩
  · refine iff_of_false (not_leads_of_nil ho hne h (hresult.trans hnone)) fun hhas => ?_
    obtain ⟨hsame, ⟨root, hlen, hroot, hroot', hne'⟩, -⟩ := hhas.resolve_left h
    have hroot_top : startsWithSlash origin = true ∨ root ≠ [] := by
      refine or_iff_not_imp_left.mpr fun hrel => ?_
      rw [if_neg hrel] at hlen
      exact List.ne_nil_of_length_pos (by omega)
    by_cases hwhole : root = kept origin
    · obtain ⟨r, hr⟩ := hroot'
      refine hbelow' ⟨hsame, r, ?_, by rw [← hr, hwhole]⟩
      rintro rfl
      exact hne' (by rw [← hr, List.append_nil])
    · exact hall root hroot_top hroot hwhole hroot' hne' hsame

/-- From a path with a drive that was taken away, there is no way. -/
lemma leads_iff_of_lost (ho : 0 ∉ origin) (ht : 0 ∉ target) (hne : origin ≠ [])
    (h : simplifyPath origin ≠ simplifyPath target)
    (hrel : startsWithSlash origin = false) (hnil : kept origin = []) :
    Leads origin target ↔ HasWay origin target := by
  refine iff_of_false ?_ fun hhas => ?_
  · have hresult := getRelativePath_of_ne ho h
    split_ifs at hresult with hbelow
    · -- what is found begins with a slash, and what the result leads to does not
      rintro ⟨-, hleads⟩
      have hnul : 0 ∉ origin ++ ch '/' :: getRelativePath origin target := by
        rw [hresult, List.mem_append, List.mem_cons, not_or, not_or]
        refine ⟨ho, by decide, fun hmem => ?_⟩
        rw [simplifyPath_eq ht] at hmem
        exact noNul_render (kept_chunks ht) (List.mem_of_mem_drop hmem)
      have hstart : startsWithSlash (origin ++ ch '/' :: getRelativePath origin target) = false := by
        obtain ⟨d, text, rfl⟩ := List.exists_cons_of_ne_nil hne
        exact hrel
      obtain ⟨text, htext⟩ := hbelow
      rw [hrel, hnil, dirText, render_nil] at htext
      have hhead : (simplifyPath target).head? = some (ch '/') := by
        rw [← htext]
        rfl
      rw [← hleads, simplifyPath_eq hnul, (head_render (kept_chunks hnul)).2, hstart] at hhead
      exact absurd hhead.1 Bool.false_ne_true
    · rw [hrel, hnil, relativeLoop_root] at hresult
      exact not_leads_of_nil ho hne h hresult
  · obtain ⟨-, ⟨root, hlen, hroot, -⟩, -⟩ := hhas.resolve_left h
    rw [hnil] at hroot
    rw [List.prefix_nil.mp hroot, hrel] at hlen
    exact absurd hlen (by simp)

lemma leads_iff (ho : 0 ∉ origin) (ht : 0 ∉ target) (horigin : isAbsolutePath origin = true)
    (hups : bytes ".." ∉ (simplifyPath origin).splitOn (ch '/'))
    (hups' : bytes ".." ∉ (simplifyPath target).splitOn (ch '/')) :
    Leads origin target ↔ HasWay origin target := by
  have hne : origin ≠ [] := by
    rintro rfl
    exact absurd horigin (by decide)
  have hkept := up_notMem_kept ho hups
  have hkept' := up_notMem_kept ht hups'
  by_cases h : simplifyPath origin = simplifyPath target
  · exact iff_of_true (leads_of_eq ho hne h) (Or.inl h)
  by_cases htop : startsWithSlash origin = true ∨ kept origin ≠ []
  · by_cases hbelow : dirText (startsWithSlash origin) (kept origin) <+: simplifyPath target
    · exact leads_iff_of_below ho ht hne h hkept hkept' htop hbelow
    · exact leads_iff_of_not_below ho ht hne h hkept hkept' htop hbelow
  · rw [not_or, not_not, Bool.not_eq_true] at htop
    exact leads_iff_of_lost ho ht hne h htop.1 htop.2

end

/-- **The result leads** from one path to another exactly if there is a way between them. -/
theorem relativePath_iff (origin target : CString) (horigin : isAbsolutePath origin.bytes = true)
    (hups : bytes ".." ∉ (simplifyPath origin.bytes).splitOn (ch '/'))
    (hups' : bytes ".." ∉ (simplifyPath target.bytes).splitOn (ch '/')) :
    (isAbsolutePath (getRelativePath origin.bytes target.bytes) = false ∧
      simplifyPath (origin.bytes ++ bytes "/" ++ getRelativePath origin.bytes target.bytes)
        = simplifyPath target.bytes) ↔ HasWay origin.bytes target.bytes := by
  have htext : origin.bytes ++ bytes "/" ++ getRelativePath origin.bytes target.bytes
      = origin.bytes ++ ch '/' :: getRelativePath origin.bytes target.bytes :=
    (List.append_cons _ _ _).symm
  rw [htext]
  exact leads_iff origin.noNul target.noNul horigin hups hups'

def usr : CString := ⟨bytes "/usr", by decide⟩

def usrLib : CString := ⟨bytes "/usr/lib", by decide⟩

def root : CString := ⟨bytes "/", by decide⟩

/-- What is simplified has no component that leads upwards if none is kept. -/
lemma up_notMem_split (path : CString)
    (h : bytes ".." ∉ (render (startsWithSlash path.bytes) (kept path.bytes)).splitOn (ch '/')) :
    bytes ".." ∉ (simplifyPath path.bytes).splitOn (ch '/') := by
  rwa [simplifyPath_eq path.noNul]

/-- A directory and one in it -/
theorem relativePath_iff_usr :
    (isAbsolutePath (getRelativePath usr.bytes usrLib.bytes) = false ∧
      simplifyPath (usr.bytes ++ bytes "/" ++ getRelativePath usr.bytes usrLib.bytes)
        = simplifyPath usrLib.bytes) ↔ HasWay usr.bytes usrLib.bytes :=
  relativePath_iff usr usrLib (by decide) (up_notMem_split usr (by decide))
    (up_notMem_split usrLib (by decide))

/-- There is no way to the root. -/
theorem no_way_to_root : ¬ ∀ origin target : CString, isAbsolutePath origin.bytes = true →
    isAbsolutePath target.bytes = true →
    bytes ".." ∉ (simplifyPath origin.bytes).splitOn (ch '/') →
    bytes ".." ∉ (simplifyPath target.bytes).splitOn (ch '/') →
    isAbsolutePath (getRelativePath origin.bytes target.bytes) = false ∧
      simplifyPath (origin.bytes ++ bytes "/" ++ getRelativePath origin.bytes target.bytes)
        = simplifyPath target.bytes := by
  intro h
  have hups := up_notMem_split usr (by decide)
  have hups' := up_notMem_split root (by decide)
  have hleads : Leads usr.bytes root.bytes := h usr root (by decide) (by decide) hups hups'
  rcases (leads_iff usr.noNul root.noNul (by decide) hups hups').mp hleads with
    hsame | ⟨-, ⟨top, hlen, -, -, hne⟩, -⟩
  · rw [simplifyPath_eq usr.noNul, simplifyPath_eq root.noNul] at hsame
    exact absurd hsame (by decide)
  · exact hne (List.length_eq_zero_iff.mp hlen)

end Nstd.File
