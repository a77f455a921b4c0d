import SerialNexus.PathText

/-! # File trees and path look-ups

A file system as a tree of named nodes with symbolic links, and the look-up of a path in it: part by
part from a directory, through links, of which at most a fixed number is followed. -/

abbrev FileName := {name : PathText // PathText.isFileName name = true}

inductive FileTree where
  | device
  | file (content : Option PathText)
  | link (target : PathText)
  | dir (entries : List (FileName × FileTree))

namespace FileTree

open PathText

def child : FileTree → PathText → Option FileTree
  | .dir entries, name => (entries.find? fun e => e.1.val = name).map (·.2)
  | .device, _ | .file _, _ | .link _, _ => none

def lookup (t : FileTree) : List PathText → Option FileTree
  | [] => some t
  | name :: names => (t.child name).bind (·.lookup names)

def list : FileTree → Option (List PathText)
  | .dir entries => some (entries.map (·.1.val)).dedup
  | .device | .file _ | .link _ => none

def isLink : FileTree → Bool
  | .link _ => true
  | .device | .file _ | .dir _ => false

def isDirAt (t : FileTree) (loc : List PathText) : Bool := ((t.lookup loc).bind FileTree.list).isSome

theorem lookup_append (t : FileTree) (p q : List PathText) :
    t.lookup (p ++ q) = (t.lookup p).bind (·.lookup q) := by
  induction p generalizing t with
  | nil => rfl
  | cons name p ih =>
    rw [List.cons_append, lookup, lookup]
    cases t.child name with
    | none => rfl
    | some c => exact ih c

theorem lookup_concat (t : FileTree) (p : List PathText) (name : PathText) :
    t.lookup (p ++ [name]) = (t.lookup p).bind (·.child name) := by
  rw [lookup_append]
  refine congrArg (Option.bind _) (funext fun c => ?_)
  simp [lookup]

variable {t c : FileTree} {name : PathText}

theorem mem_list_iff {names : List PathText} (h : t.list = some names) (name : PathText) :
    name ∈ names ↔ (t.child name).isSome := by
  cases t with
  | dir entries =>
    cases h
    simp [child, List.find?_isSome]
  | device | file _ | link _ => cases h

theorem list_isSome_of_child (h : t.child name = some c) : t.list.isSome := by
  cases t with
  | dir entries => rfl
  | device | file _ | link _ => cases h

theorem isFileName_of_child (h : t.child name = some c) : isFileName name = true := by
  cases t with
  | dir entries =>
    obtain ⟨e, he, -⟩ := Option.map_eq_some_iff.mp h
    have hname := List.find?_some he
    rw [decide_eq_true_eq] at hname
    exact hname ▸ e.1.property
  | device | file _ | link _ => cases h

theorem isDirAt_of_lookup {loc : List PathText} (h : t.lookup (loc ++ [name]) = some c) :
    t.isDirAt loc = true ∧ isFileName name = true := by
  rw [lookup_concat] at h
  obtain ⟨d, hd, hc⟩ := Option.bind_eq_some_iff.mp h
  refine ⟨?_, isFileName_of_child hc⟩
  rw [isDirAt, hd]
  exact list_isSome_of_child hc

variable (t : FileTree)

/-! ### Walks -/

def walkWith (follow : List PathText → List PathText → Option (List PathText)) :
    List PathText → List PathText → Option (List PathText)
  | loc, [] => some loc
  | loc, part :: rest =>
    if t.isDirAt loc = false then none
    else if isStay part then walkWith follow loc rest
    else if part = ['.', '.'] then walkWith follow loc.dropLast rest
    else
      match t.lookup (loc ++ [part]) with
      | none => none
      | some (.link target) => follow (if isAbsolute target then [] else loc) (parts target ++ rest)
      | some _ => walkWith follow (loc ++ [part]) rest

def walk : ℕ → List PathText → List PathText → Option (List PathText)
  | 0 => t.walkWith fun _ _ => none
  | links + 1 => t.walkWith (walk links)

def Canonical (loc : List PathText) : Prop :=
  ∀ p name, p ++ [name] <+: loc → ∃ c, t.lookup (p ++ [name]) = some c ∧ c.isLink = false

variable {t} {links : ℕ} {loc : List PathText}

@[simp] theorem walk_nil : t.walk links loc [] = some loc := by
  cases links <;> rfl

inductive Moves (t : FileTree) (loc : List PathText) (part : PathText) : List PathText → Prop
  | stays : isStay part = true → Moves t loc part loc
  | climbs : part = ['.', '.'] → Moves t loc part loc.dropLast
  | enters (c : FileTree) : t.lookup (loc ++ [part]) = some c → c.isLink = false →
      Moves t loc part (loc ++ [part])

inductive Turn (t : FileTree) (links : ℕ) (loc : List PathText) (part : PathText) : Prop
  | fails : (∀ rest, t.walk links loc (part :: rest) = none) → Turn t links loc part
  | moves (loc' : List PathText) : t.isDirAt loc = true → Moves t loc part loc' →
      (∀ rest, t.walk links loc (part :: rest) = t.walk links loc' rest) → Turn t links loc part
  | follows (k : ℕ) (target : PathText) : links = k + 1 → t.isDirAt loc = true →
      t.lookup (loc ++ [part]) = some (.link target) →
      (∀ rest, t.walk links loc (part :: rest) =
        t.walk k (if isAbsolute target then [] else loc) (parts target ++ rest)) →
      Turn t links loc part

theorem walk_turn (t : FileTree) (links : ℕ) (loc : List PathText) (part : PathText) :
    Turn t links loc part := by
  by_cases hdir : t.isDirAt loc = true
  · by_cases hstay : isStay part = true
    · exact .moves loc hdir (.stays hstay) fun rest => by
        cases links <;> simp [walk, walkWith, hdir, hstay]
    · rw [Bool.not_eq_true] at hstay
      by_cases hparent : part = ['.', '.']
      · exact .moves _ hdir (.climbs hparent) fun rest => by
          cases links <;> simp [walk, walkWith, hdir, hstay, if_pos hparent]
      · cases hc : t.lookup (loc ++ [part]) with
        | none =>
          exact .fails fun rest => by
            cases links <;> simp [walk, walkWith, hdir, hstay, hparent, hc]
        | some c =>
          cases c with
          | link target =>
            cases links with
            | zero =>
              exact .fails fun rest => by simp [walk, walkWith, hdir, hstay, hparent, hc]
            | succ k =>
              exact .follows k target rfl hdir hc fun rest => by
                simp [walk, walkWith, hdir, hstay, hparent, hc]
          | device | file _ | dir _ =>
            exact .moves _ hdir (.enters _ hc rfl) fun rest => by
              cases links <;> simp [walk, walkWith, hdir, hstay, hparent, hc]
  · exact .fails fun rest => by cases links <;> simp [walk, walkWith, hdir]

theorem walk_induction {motive : ℕ → List PathText → List PathText → Prop}
    (nil : ∀ links loc, motive links loc [])
    (cons : ∀ links loc part rest, (∀ loc', motive links loc' rest) →
      (∀ k, k < links → ∀ loc' A, motive k loc' A) → motive links loc (part :: rest))
    (links : ℕ) (loc A : List PathText) : motive links loc A := by
  induction links using Nat.strong_induction_on generalizing loc A with
  | _ links ihl =>
    induction A generalizing loc with
    | nil => exact nil links loc
    | cons part A ih => exact cons links loc part A ih ihl

variable {A q B r : List PathText} {c : FileTree} {name : PathText}

theorem walk_append (h : t.walk links loc A = some q) :
    ∃ k, ∀ B, t.walk links loc (A ++ B) = t.walk k q B := by
  induction links, loc, A using walk_induction with
  | nil links loc =>
    rw [walk_nil] at h
    cases h
    exact ⟨links, fun B => rfl⟩
  | cons links loc part rest ih ihk =>
    cases walk_turn t links loc part with
    | fails hw =>
      rw [hw] at h
      cases h
    | moves loc' _ _ hw =>
      rw [hw] at h
      obtain ⟨k, hk⟩ := ih loc' h
      exact ⟨k, fun B => (hw _).trans (hk B)⟩
    | follows k target hlinks _ _ hw =>
      rw [hw] at h
      obtain ⟨k', hk⟩ := ihk k (by omega) _ _ h
      refine ⟨k', fun B => ?_⟩
      rw [List.cons_append, hw, ← List.append_assoc]
      exact hk B

theorem walk_prefix (h : t.walk links loc (A ++ B) = some r) :
    ∃ q, t.walk links loc A = some q := by
  induction links, loc, A using walk_induction generalizing B with
  | nil links loc => exact ⟨loc, walk_nil⟩
  | cons links loc part rest ih ihk =>
    rw [List.cons_append] at h
    cases walk_turn t links loc part with
    | fails hw =>
      rw [hw] at h
      cases h
    | moves loc' _ _ hw =>
      rw [hw] at h ⊢
      exact ih loc' h
    | follows k target hlinks _ _ hw =>
      rw [hw, ← List.append_assoc] at h
      rw [hw]
      exact ihk k (by omega) _ _ h

theorem walk_stay {c : PathText} (hc : isStay c = true) {B : List PathText} (hB : B ≠ [])
    (A : List PathText) : t.walk links loc (A ++ c :: B) = t.walk links loc (A ++ B) := by
  induction links, loc, A using walk_induction with
  | nil links loc =>
    obtain ⟨b, B, rfl⟩ := List.exists_cons_of_ne_nil hB
    rw [List.nil_append, List.nil_append]
    by_cases hdir : t.isDirAt loc = true
    · cases links <;> simp [walk, walkWith, hdir, hc]
    · cases links <;> simp [walk, walkWith, hdir]
  | cons links loc part rest ih ihk =>
    rw [List.cons_append, List.cons_append]
    cases walk_turn t links loc part with
    | fails hw => rw [hw, hw]
    | moves loc' _ _ hw =>
      rw [hw, hw]
      exact ih loc'
    | follows k target hlinks _ _ hw =>
      rw [hw, hw, ← List.append_assoc, ← List.append_assoc]
      exact ihk k (by omega) _ _

theorem walk_filter {B : List PathText} (hB : B ≠ []) (A L : List PathText) :
    t.walk links loc (A ++ (L ++ B)) = t.walk links loc (A ++ (L.filter (!isStay ·) ++ B)) := by
  induction L generalizing A with
  | nil => rfl
  | cons c L ih =>
    by_cases hc : isStay c = true
    · rw [List.cons_append, walk_stay hc (by simp [hB]), List.filter_cons_of_neg (by simp [hc])]
      exact ih A
    · have hmove : ∀ M : List PathText, A ++ (c :: M) = A ++ [c] ++ M := fun M => by simp
      rw [List.filter_cons_of_pos (by simp [hc]), List.cons_append, List.cons_append,
        hmove (L ++ B), hmove (_ ++ B)]
      exact ih (A ++ [c])

theorem walk_filter_of_some {L : List PathText} (h : t.walk links loc L = some q) :
    t.walk links loc (L.filter (!isStay ·)) = some q := by
  induction L using List.reverseRecOn generalizing q with
  | nil => exact h
  | append_singleton L c ih =>
    rw [List.filter_append]
    by_cases hc : isStay c = true
    · obtain ⟨q', hq⟩ := walk_prefix h
      obtain ⟨k, hk⟩ := walk_append hq
      have hend : t.walk k q' [c] = some q := (hk [c]).symm.trans h
      have hsame : q' = q := by cases k <;> simp_all [walk, walkWith]
      rw [List.filter_cons_of_neg (by simp [hc]), List.filter_nil, List.append_nil]
      exact hsame ▸ ih hq
    · have hall : t.walk links loc (L ++ [c]) =
          t.walk links loc (L.filter (!isStay ·) ++ [c]) := walk_filter (by simp) [] L
      rw [List.filter_cons_of_pos (by simp [hc]), List.filter_nil]
      exact hall.symm.trans h

theorem list_of_walk (hn : isFileName name = true) (h : t.walk links loc (name :: B) = some r) :
    ∃ names, (t.lookup loc).bind FileTree.list = some names ∧ name ∈ names := by
  have hlisted : ∀ c, t.lookup (loc ++ [name]) = some c →
      ∃ names, (t.lookup loc).bind FileTree.list = some names ∧ name ∈ names := by
    intro c hc
    rw [lookup_concat] at hc
    obtain ⟨d, hd, hchild⟩ := Option.bind_eq_some_iff.mp hc
    obtain ⟨names, hnames⟩ := Option.isSome_iff_exists.mp (list_isSome_of_child hchild)
    refine ⟨names, by rw [hd]; exact hnames, (mem_list_iff hnames name).mpr ?_⟩
    rw [hchild]
    rfl
  have hstay := isStay_fileName hn
  cases walk_turn t links loc name with
  | fails hw =>
    rw [hw] at h
    cases h
  | moves loc' _ hmove hw =>
    cases hmove with
    | stays hs => simp [hstay] at hs
    | climbs hparent => simp [isFileName, hparent] at hn
    | enters c hc _ => exact hlisted c hc
  | follows k target _ _ hc _ => exact hlisted _ hc

theorem canonical_nil (t : FileTree) : t.Canonical [] := by
  intro p name h
  simp at h

theorem Canonical.of_prefix {p : List PathText} (h : t.Canonical loc) (hp : p <+: loc) :
    t.Canonical p :=
  fun q name hq => h q name (hq.trans hp)

theorem Canonical.isFileName (h : t.Canonical loc) (hn : name ∈ loc) : isFileName name = true := by
  obtain ⟨A, B, rfl⟩ := List.append_of_mem hn
  obtain ⟨c, hc, -⟩ := h A name ⟨B, by simp⟩
  exact (isDirAt_of_lookup hc).2

theorem Canonical.concat (h : t.Canonical loc) (hc : t.lookup (loc ++ [name]) = some c)
    (hlink : c.isLink = false) : t.Canonical (loc ++ [name]) := by
  intro p n hp
  rcases List.prefix_concat_iff.mp hp with heq | hp
  · rw [heq]
    exact ⟨c, hc, hlink⟩
  · exact h p n hp

theorem Canonical.walk (hloc : t.Canonical loc) (h : t.walk links loc A = some q) :
    t.Canonical q := by
  induction links, loc, A using walk_induction with
  | nil links loc =>
    rw [walk_nil] at h
    exact Option.some.inj h ▸ hloc
  | cons links loc part rest ih ihk =>
    cases walk_turn t links loc part with
    | fails hw =>
      rw [hw] at h
      cases h
    | moves loc' _ hmove hw =>
      rw [hw] at h
      cases hmove with
      | stays _ => exact ih loc hloc h
      | climbs _ => exact ih _ (hloc.of_prefix (List.dropLast_prefix loc)) h
      | enters c hc hlink => exact ih _ (hloc.concat hc hlink) h
    | follows k target hlinks _ _ hw =>
      rw [hw] at h
      refine ihk k (by omega) _ _ ?_ h
      split
      · exact canonical_nil t
      · exact hloc

theorem walk_enter (hc : t.lookup (loc ++ [name]) = some c) (hlink : c.isLink = false)
    (rest : List PathText) :
    t.walk links loc (name :: rest) = t.walk links (loc ++ [name]) rest := by
  obtain ⟨hdir, hname⟩ := isDirAt_of_lookup hc
  have hstay := isStay_fileName hname
  have hparent : name ≠ ['.', '.'] := by
    rintro rfl
    cases hname
  cases c with
  | link target => cases hlink
  | device | file _ | dir _ => cases links <;> simp [walk, walkWith, hdir, hstay, hparent, hc]

theorem Canonical.walk_to {rel : List PathText} (h : t.Canonical (loc ++ rel)) :
    t.walk links loc rel = some (loc ++ rel) := by
  induction rel generalizing loc with
  | nil => simp
  | cons name rel ih =>
    have hmove : loc ++ name :: rel = loc ++ [name] ++ rel := by simp
    rw [hmove] at h ⊢
    obtain ⟨c, hc, hlink⟩ := h loc name (List.prefix_append _ _)
    rw [walk_enter hc hlink]
    exact ih h

end FileTree

structure FileSystem where
  root : FileTree
  cwd : List PathText
  cwd_canonical : root.Canonical cwd

namespace FileSystem

open PathText

variable (fs : FileSystem)

def maxLinks : ℕ := 40

def start (p : PathText) : List PathText := if isAbsolute p then [] else fs.cwd

def canonicalize (p : PathText) : Option (List PathText) :=
  if p = [] then none else fs.root.walk maxLinks (fs.start p) (parts p)

def metadata (p : PathText) : Option FileTree := (fs.canonicalize p).bind fs.root.lookup

def isDir (p : PathText) : Bool := ((fs.metadata p).bind FileTree.list).isSome

def readDir (p : PathText) : Option (List PathText) := (fs.metadata p).bind FileTree.list

def readLink (p : PathText) : Option PathText :=
  match fs.root.walk maxLinks (fs.start p) (parts p).dropLast, (parts p).getLast? with
  | some loc, some name =>
    match fs.root.lookup (loc ++ [name]) with
    | some (.link target) => some target
    | _ => none
  | _, _ => none

def readToString (p : PathText) : Option PathText :=
  match fs.metadata p with
  | some (.file content) => content
  | _ => none

variable {fs} {p q : PathText}

theorem canonicalize_join (hp : p ≠ []) (hq : isAbsolute q = false) :
    fs.canonicalize (join p q) = fs.root.walk maxLinks (fs.start p) (parts p ++ parts q) := by
  rw [canonicalize, if_neg (join_ne_nil hp q), start, start, isAbsolute_join hp hq]
  rcases parts_join hp hq with h | ⟨A, -, hA, h⟩
  · rw [h]
  · rw [h, hA, List.append_assoc, List.singleton_append, FileTree.walk_stay rfl (parts_ne_nil q)]

variable {loc : List PathText} {name : PathText}

theorem canonicalize_canonical (h : fs.canonicalize p = some loc) : fs.root.Canonical loc := by
  unfold canonicalize at h
  split at h
  · cases h
  · refine FileTree.Canonical.walk ?_ h
    unfold start
    split
    · exact fs.root.canonical_nil
    · exact fs.cwd_canonical

theorem mem_readDir {dir : PathText} (hdir : dir ≠ []) (hn : isFileName name = true)
    {B r : List PathText}
    (h : fs.root.walk maxLinks (fs.start dir) (parts dir ++ name :: B) = some r) :
    ∃ names, fs.readDir dir = some names ∧ name ∈ names := by
  obtain ⟨loc, hloc⟩ := FileTree.walk_prefix h
  obtain ⟨k, hk⟩ := FileTree.walk_append hloc
  rw [hk] at h
  have hcanon : fs.canonicalize dir = some loc := by rw [canonicalize, if_neg hdir, hloc]
  rw [readDir, metadata, hcanon]
  exact FileTree.list_of_walk hn h

theorem canonicalize_of_components (hq : q ≠ []) (hn : isFileName name = true)
    (hc : components p = components (join q name)) (h : fs.canonicalize p = some loc) :
    fs.canonicalize (join q name) = some loc := by
  unfold canonicalize at h
  split at h
  · cases h
  · obtain ⟨habs, hinner⟩ := components_congr hc
    have hreal := filter_parts_congr hinner
    have hwalk := FileTree.walk_filter_of_some h
    have hstart : fs.start p = fs.start q := by
      rw [start, start, habs, isAbsolute_join hq (isAbsolute_fileName hn)]
    have hlast : ∀ L : List PathText, (L ++ [name]).filter (!isStay ·) =
        L.filter (!isStay ·) ++ [name] := fun L => by
      rw [List.filter_append, List.filter_cons_of_pos (by simp [isStay_fileName hn]),
        List.filter_nil]
    have hparts : (parts (join q name)).filter (!isStay ·) =
        (parts q).filter (!isStay ·) ++ [name] := by
      rcases parts_join hq (isAbsolute_fileName hn) with h | ⟨A, -, hA, h⟩
      · rw [h, parts_fileName hn, hlast]
      · rw [h, hA, parts_fileName hn, hlast, List.filter_append]
        simp [isStay]
    rw [canonicalize_join hq (isAbsolute_fileName hn), parts_fileName hn, ← hstart]
    rw [hreal, hparts] at hwalk
    exact (FileTree.walk_filter (by simp) [] (parts q)).trans hwalk

theorem canonicalize_of_join (hp : p ≠ []) (hq : isAbsolute q = false)
    (h : fs.canonicalize (join p q) = some loc) :
    ∃ k d, fs.canonicalize p = some d ∧ fs.root.walk k d (parts q) = some loc := by
  rw [canonicalize_join hp hq] at h
  obtain ⟨d, hd⟩ := FileTree.walk_prefix h
  obtain ⟨k, hk⟩ := FileTree.walk_append hd
  refine ⟨k, d, ?_, (hk _).symm.trans h⟩
  rw [canonicalize, if_neg hp, hd]

theorem canonicalize_join_names {d names : List PathText} (hp : p ≠ [])
    (hd : fs.canonicalize p = some d) (hc : fs.root.Canonical (d ++ names)) (hne : names ≠ []) :
    fs.canonicalize (join p (['/'].intercalate names)) = some (d ++ names) := by
  have hnames : ∀ name ∈ names, isFileName name = true := fun name hn =>
    hc.isFileName (List.mem_append_right d hn)
  rw [canonicalize, if_neg hp] at hd
  obtain ⟨k, hk⟩ := FileTree.walk_append hd
  rw [canonicalize_join hp (isAbsolute_intercalate hne hnames), parts_intercalate hne hnames, hk]
  exact hc.walk_to

end FileSystem
