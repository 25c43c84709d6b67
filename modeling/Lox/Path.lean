import Lox.Text.Bytes

/-!
Paths of files.

The text of a path divides its names by slashes; an absolute one starts with a
slash.  A location is the list of names from the root.
-/

namespace Lox

abbrev Location := List Bytes

namespace Path

def slash : UInt8 := 0x2f

def split : Bytes → List Bytes
  | [] => [[]]
  | b :: rest =>
      if b = slash then [] :: split rest
      else
        match split rest with
        | [] => [[b]]
        | name :: names => (b :: name) :: names

def isAbsolute (text : Bytes) : Bool := text.head? = some slash

def here : Bytes := utf8 "."

def above : Bytes := utf8 ".."

/-- Goes from a location to one of its entries, stays there or goes up. -/
def step (place : Location) (name : Bytes) : Location :=
  if name = [] ∨ name = here then place
  else if name = above then place.dropLast
  else place ++ [name]

def resolve (directory : Location) (text : Bytes) : Location :=
  (split text).foldl step (if isAbsolute text then [] else directory)

def text (place : Location) : Bytes := slash :: Bytes.join [slash] place

/-- As `step`, from a place that is not known: what leads above it is kept. -/
def stepFrom (names : List Bytes) (name : Bytes) : List Bytes :=
  if name = [] ∨ name = here then names
  else if name = above ∧ names.getLast?.any (· != above) then names.dropLast
  else names ++ [name]

/-- The shortest path that leads where a path leads. -/
def clean (path : Bytes) : Bytes :=
  if isAbsolute path then text (resolve [] path)
  else
    match (split path).foldl stepFrom [] with
    | [] => here
    | names => Bytes.join [slash] names

/-- The clean path of an entry of a directory; what is empty is passed over. -/
def join (directory name : Bytes) : Bytes :=
  if directory = [] then if name = [] then [] else clean name
  else clean (directory ++ slash :: name)

/-- The clean path of the directory that holds the last name of a path. -/
def parent (path : Bytes) : Bytes := clean (path.reverse.dropWhile (· != slash)).reverse

/-! ## Paths and their names -/

theorem split_ne_nil (path : Bytes) : split path ≠ [] := by
  cases path with
  | nil => simp [split]
  | cons b rest =>
      rw [split]
      split
      · simp
      · cases split rest <;> simp

theorem split_append (path rest : Bytes) :
    split (path ++ slash :: rest) = split path ++ split rest := by
  induction path with
  | nil => simp [split]
  | cons b path ih =>
      rw [List.cons_append, split, split, ih]
      split
      · rfl
      · cases hsplit : split path with
        | nil => exact absurd hsplit (split_ne_nil path)
        | cons name names => rfl

theorem split_of_not_mem {name : Bytes} (h : slash ∉ name) : split name = [name] := by
  induction name with
  | nil => rfl
  | cons b name ih =>
      rw [List.mem_cons, not_or] at h
      rw [split, if_neg (Ne.symm h.1), ih h.2]

theorem not_mem_of_mem_split {path name : Bytes} (h : name ∈ split path) : slash ∉ name := by
  induction path generalizing name with
  | nil => simp_all [split]
  | cons b path ih =>
      rw [split] at h
      split at h
      · rcases List.mem_cons.mp h with rfl | h
        · simp
        · exact ih h
      · next hb =>
          cases hsplit : split path with
          | nil => exact absurd hsplit (split_ne_nil path)
          | cons first names =>
              rw [hsplit] at h ih
              rcases List.mem_cons.mp h with rfl | h
              · rw [List.mem_cons, not_or]
                exact ⟨fun heq => hb heq.symm, ih List.mem_cons_self⟩
              · exact ih (List.mem_cons_of_mem first h)

structure IsName (name : Bytes) : Prop where
  ne_nil : name ≠ []
  ne_here : name ≠ here
  ne_above : name ≠ above
  slash_not_mem : slash ∉ name

theorem resolve_root (path : Bytes) : resolve [] path = (split path).foldl step [] := by
  simp [resolve]

theorem step_of_isName (place : Location) {name : Bytes} (h : IsName name) :
    step place name = place ++ [name] := by
  simp [step, h.ne_nil, h.ne_here, h.ne_above]

theorem foldl_step {place names : Location} (h : ∀ name ∈ names, IsName name) :
    names.foldl step place = place ++ names := by
  induction names generalizing place with
  | nil => simp
  | cons name names ih =>
      rw [List.foldl_cons, step_of_isName place (h name List.mem_cons_self),
        ih fun n hn => h n (List.mem_cons_of_mem name hn)]
      simp

theorem isName_of_mem_foldl {place names : Location} (hplace : ∀ name ∈ place, IsName name)
    (hnames : ∀ name ∈ names, slash ∉ name) : ∀ name ∈ names.foldl step place, IsName name := by
  induction names generalizing place with
  | nil => exact hplace
  | cons first names ih =>
      refine ih ?_ fun name hname => hnames name (List.mem_cons_of_mem first hname)
      intro name hname
      unfold step at hname
      split at hname
      · exact hplace name hname
      · next hstay =>
          split at hname
          · exact hplace name (List.dropLast_subset place hname)
          · next hup =>
              rcases List.mem_append.mp hname with hname | hname
              · exact hplace name hname
              · obtain rfl := List.mem_singleton.mp hname
                exact ⟨fun h => hstay (.inl h), fun h => hstay (.inr h), hup,
                  hnames name List.mem_cons_self⟩

theorem isName_of_mem_resolve {path : Bytes} : ∀ name ∈ resolve [] path, IsName name := by
  rw [resolve_root]
  exact isName_of_mem_foldl (fun _ h => absurd h List.not_mem_nil)
    fun _ h => not_mem_of_mem_split h

theorem split_join {place : Location} (hne : place ≠ []) (h : ∀ name ∈ place, IsName name) :
    split (Bytes.join [slash] place) = place := by
  induction place with
  | nil => exact absurd rfl hne
  | cons name rest ih =>
      have hname := split_of_not_mem (h name List.mem_cons_self).slash_not_mem
      cases rest with
      | nil => simpa [Bytes.join] using hname
      | cons next rest =>
          have hrest := ih (List.cons_ne_nil next rest)
            fun n hn => h n (List.mem_cons_of_mem name hn)
          rw [Bytes.join, List.append_assoc, List.singleton_append, split_append, hname, hrest]
          · rfl
          · exact List.cons_ne_nil next rest

section

variable {place : Location}

theorem resolve_text (h : ∀ name ∈ place, IsName name) : resolve [] (text place) = place := by
  rw [resolve_root, text, split, if_pos rfl, List.foldl_cons]
  cases place with
  | nil => rfl
  | cons name rest =>
      rw [split_join (List.cons_ne_nil name rest) h, foldl_step h]
      rfl

theorem clean_of_isAbsolute {path : Bytes} (h : isAbsolute path = true) :
    clean path = text (resolve [] path) := if_pos h

theorem clean_text (h : ∀ name ∈ place, IsName name) : clean (text place) = text place := by
  rw [clean_of_isAbsolute rfl, resolve_text h]

theorem clean_clean {path : Bytes} (h : isAbsolute path = true) :
    clean (clean path) = clean path := by
  rw [clean_of_isAbsolute h]
  exact clean_text isName_of_mem_resolve

theorem isAbsolute_clean {path : Bytes} (h : isAbsolute path = true) :
    isAbsolute (clean path) = true := by
  rw [clean_of_isAbsolute h]
  rfl

theorem join_of_isAbsolute {directory : Bytes} (h : isAbsolute directory = true)
    (name : Bytes) : join directory name = text (resolve [] (directory ++ slash :: name)) := by
  cases directory with
  | nil => cases h
  | cons b rest => exact clean_of_isAbsolute h

theorem text_eq_flatMap (hne : place ≠ []) : text place = place.flatMap (slash :: ·) := by
  rw [text]
  induction place with
  | nil => exact absurd rfl hne
  | cons name rest ih =>
      cases rest with
      | nil => simp [Bytes.join]
      | cons next rest =>
          rw [List.flatMap_cons, ← ih (List.cons_ne_nil next rest)]
          simp [Bytes.join]

/-- The last name stands behind the last slash, and before it the way to its directory. -/
theorem exists_text_concat (h : ∀ name ∈ place, IsName name) (name : Bytes) :
    ∃ way, text (place ++ [name]) = way ++ slash :: name ∧ resolve [] way = place := by
  refine ⟨place.flatMap (slash :: ·), ?_, ?_⟩
  · rw [text_eq_flatMap (by simp)]
    simp
  · cases place with
    | nil => rfl
    | cons first rest => rw [← text_eq_flatMap (List.cons_ne_nil first rest), resolve_text h]

theorem parent_text (h : ∀ name ∈ place, IsName name) :
    parent (text place) = text place.dropLast := by
  rcases List.eq_nil_or_concat place with rfl | ⟨front, name, rfl⟩
  · rfl
  · rw [List.concat_eq_append] at h ⊢
    have hfront : ∀ n ∈ front, IsName n := fun n hn => h n (List.mem_append_left _ hn)
    have hname := (h name (by simp)).slash_not_mem
    obtain ⟨way, htext, hway⟩ := exists_text_concat hfront name
    have hlast : ((way ++ slash :: name).reverse.dropWhile (· != slash)).reverse =
        way ++ [slash] := by
      rw [List.reverse_append, List.reverse_cons, List.append_assoc,
        List.dropWhile_append_of_pos fun b hb => by
          simpa using fun heq : b = slash => hname (heq ▸ List.mem_reverse.mp hb)]
      simp
    have habsolute : isAbsolute (way ++ [slash]) = true := by
      cases way with
      | nil => rfl
      | cons b rest =>
          have hhead := congrArg List.head? htext
          simpa [isAbsolute, text, eq_comm] using hhead
    rw [parent, htext, hlast, clean_of_isAbsolute habsolute, resolve_root, split_append,
      List.foldl_append, ← resolve_root, hway, List.dropLast_concat]
    rfl

end

/-! ## Absolute paths -/

structure Absolute where
  text : Bytes
  isAbsolute : Path.isAbsolute text = true
  clean : Path.clean text = text
  deriving DecidableEq

namespace Absolute

def location (p : Absolute) : Location := resolve [] p.text

theorem isName_of_mem_location (p : Absolute) : ∀ name ∈ p.location, IsName name :=
  isName_of_mem_resolve

theorem text_location (p : Absolute) : Path.text p.location = p.text :=
  (clean_of_isAbsolute p.isAbsolute).symm.trans p.clean

@[ext] theorem ext {p q : Absolute} (h : p.text = q.text) : p = q := by
  cases p
  cases q
  cases h
  rfl

def ofPath (directory : Location) (path : Bytes) : Absolute :=
  if h : Path.isAbsolute path = true then ⟨_, isAbsolute_clean h, clean_clean h⟩
  else
    ⟨join (Path.text directory) path, by rw [join_of_isAbsolute rfl]; rfl,
      by rw [join_of_isAbsolute rfl]; exact clean_text isName_of_mem_resolve⟩

/-- The directory of the last name; the root is its own. -/
def parent (p : Absolute) : Absolute :=
  have h : Path.parent p.text = Path.text p.location.dropLast := by
    rw [← parent_text p.isName_of_mem_location, text_location]
  ⟨Path.parent p.text, by rw [h]; rfl, by
    rw [h]
    exact clean_text fun name hname =>
      p.isName_of_mem_location name (List.dropLast_subset _ hname)⟩

theorem location_parent (p : Absolute) : p.parent.location = p.location.dropLast := by
  have h : p.parent.text = Path.text p.location.dropLast := by
    rw [← parent_text p.isName_of_mem_location, text_location]
    rfl
  rw [location, h, resolve_text fun name hname =>
    p.isName_of_mem_location name (List.dropLast_subset _ hname)]

theorem eq_of_location_eq {p q : Absolute} (h : p.location = q.location) : p = q :=
  ext (by rw [← text_location p, ← text_location q, h])

/-- The root alone is its own directory. -/
theorem parent_eq_self_iff (p : Absolute) : p.parent = p ↔ p.location = [] := by
  constructor
  · intro h
    have hlength := congrArg List.length (p.location_parent.symm.trans (congrArg location h))
    rw [List.length_dropLast] at hlength
    exact List.length_eq_zero_iff.mp (by omega)
  · intro h
    exact eq_of_location_eq (by rw [location_parent, h]; rfl)

theorem length_location_parent_lt {p : Absolute} (h : p.parent ≠ p) :
    p.parent.location.length < p.location.length := by
  have hpos := List.length_pos_iff.mpr (mt p.parent_eq_self_iff.mpr h)
  rw [location_parent, List.length_dropLast]
  omega

end Absolute

end Path

end Lox
