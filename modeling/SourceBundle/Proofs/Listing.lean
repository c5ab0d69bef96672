import SourceBundle.Listing

/-! # Reading a listing back

A reader for the JSON form of a listing: an array of objects, each with a path and an array of
dependencies, and with white space between the symbols. It gives back the items of every listing, so
no two of them look alike.
-/
namespace SourceBundle.Listing

/-- Reads something at the front of a text; the second part is what stands behind it. -/
abbrev Reader (α : Type) : Type := List Char → Option (α × List Char)

namespace Reader

def isSpace (c : Char) : Bool := c = ' ' || c = '\n' || c = '\r' || c = '\t'

/-- What stands behind a symbol, which may have white space before it. -/
def expect (symbol : Char) (text : List Char) : Option (List Char) :=
  match text.dropWhile isSpace with
  | c :: rest => if c = symbol then some rest else none
  | [] => none

def hexValue? (c : Char) : Option Nat :=
  if c.isDigit then some (c.toNat - '0'.toNat)
  else if 'a' ≤ c ∧ c ≤ 'f' then some (c.toNat - 'a'.toNat + 10)
  else if 'A' ≤ c ∧ c ≤ 'F' then some (c.toNat - 'A'.toNat + 10)
  else none

/-- The character of four hexadecimal digits. -/
def unit? (a b c d : Char) : Option Char := do
  let code :=
    (← hexValue? a) * 4096 + (← hexValue? b) * 256 + (← hexValue? c) * 16 + (← hexValue? d)
  if code.isValidChar then some (Char.ofNat code) else none

/-- The character that a letter stands for behind a backslash. -/
def unescape? : Char → Option Char
  | '"' => some '"'
  | '\\' => some '\\'
  | '/' => some '/'
  | 'b' => some '\x08'
  | 'f' => some '\x0c'
  | 'n' => some '\n'
  | 'r' => some '\r'
  | 't' => some '\t'
  | _ => none

def push (c : Char) (read : List Char × List Char) : List Char × List Char := (c :: read.1, read.2)

/-- The characters of a string, up to its closing quote. -/
def characters : Reader (List Char)
  | [] => none
  | '"' :: rest => some ([], rest)
  | ['\\'] => none
  | '\\' :: 'u' :: a :: b :: c :: d :: rest =>
    (unit? a b c d).bind fun character => (characters rest).map (push character)
  | '\\' :: c :: rest =>
    (unescape? c).bind fun character => (characters rest).map (push character)
  | c :: rest => if c.toNat < 0x20 then none else (characters rest).map (push c)

def string : Reader String := fun text => do
  let text ← expect '"' text
  let (characters, text) ← characters text
  return (String.ofList characters, text)

variable {α : Type}

/-- The items of an array, up to its closing bracket. -/
def items (read : Reader α) (text : List Char) : Option (List α × List Char) :=
  match read text with
  | none => none
  | some (item, rest) =>
    match expect ']' rest, expect ',' rest with
    | some left, _ => some ([item], left)
    | none, none => none
    | none, some next =>
      if next.length < text.length then
        (items read next).map fun (more, left) => (item :: more, left)
      else none
termination_by text.length

def array (read : Reader α) : Reader (List α) := fun text => do
  let text ← expect '[' text
  match expect ']' text with
  | some left => return ([], left)
  | none => items read text

/-- A member of an object, whose value has a reader of its own. -/
def member (name : String) (read : Reader α) : Reader α := fun text => do
  let (key, text) ← string text
  if key ≠ name then none
  read (← expect ':' text)

def item : Reader Item := fun text => do
  let text ← expect '\x7b' text
  let (path, text) ← member "path" string text
  let text ← expect ',' text
  let (dependencies, text) ← member "dependencies" (array string) text
  let text ← expect '\x7d' text
  return (⟨path, dependencies⟩, text)

/-! ## Strings -/

theorem unit?_control {c : Char} (h : c.toNat < 0x20) :
    unit? '0' '0' (hexDigit (c.toNat / 16)) (hexDigit (c.toNat % 16)) = some c := by
  have hall : ∀ n < 0x20, unit? '0' '0' (hexDigit (n / 16)) (hexDigit (n % 16)) =
      some (Char.ofNat n) := by
    decide
  rw [hall _ h, Char.ofNat_toNat]

theorem characters_of_plain {c : Char} (hq : c ≠ '"') (hb : c ≠ '\\') (hc : ¬c.toNat < 0x20)
    (rest : List Char) : characters (c :: rest) = (characters rest).map (push c) := by
  rw [characters.eq_def]
  split
  case h_6 c' rest' _ _ h =>
    obtain ⟨rfl, rfl⟩ := List.cons.inj h
    rw [if_neg hc]
  all_goals simp_all

/-- Each character is read back as it is written. -/
theorem characters_escape (c : Char) (rest : List Char) :
    characters (escape c ++ rest) = (characters rest).map (push c) := by
  unfold escape
  split
  · rfl
  · rfl
  · rfl
  · rfl
  · rfl
  · rfl
  · rfl
  · rename_i hq hb _ _ _ _ _
    by_cases hc : c.toNat < 0x20
    · rw [if_pos hc]
      have hunit := unit?_control hc
      simp only [List.cons_append, List.nil_append, characters, hunit, Option.bind_some]
    · rw [if_neg hc]
      exact characters_of_plain hq hb hc rest

theorem characters_flatMap_escape (text rest : List Char) :
    characters (text.flatMap escape ++ '"' :: rest) = some (text, rest) := by
  induction text with
  | nil => rfl
  | cons c text ih =>
    rw [List.flatMap_cons, List.append_assoc, characters_escape, ih]
    rfl

/-- A reader gives a value back from its text, whatever white space stands before it and whatever
stands behind it. The text does not begin like the end of an array. -/
structure Reads (read : Reader α) (text : String) (value : α) : Prop where
  back : ∀ margin rest : List Char, margin.all isSpace = true →
    read (margin ++ text.toList ++ rest) = some (value, rest)
  head : ∃ c rest, text.toList = c :: rest ∧ isSpace c = false ∧ c ≠ ']'

theorem expect_append {margin : List Char} (hm : margin.all isSpace = true) (symbol : Char)
    (hs : isSpace symbol = false) (rest : List Char) :
    expect symbol (margin ++ symbol :: rest) = some rest := by
  have hdrop : (margin ++ symbol :: rest).dropWhile isSpace = symbol :: rest := by
    rw [List.dropWhile_append_of_pos fun c hc => List.all_eq_true.mp hm c hc,
      List.dropWhile_cons_of_neg (by simp [hs])]
  rw [expect, hdrop]
  exact if_pos rfl

theorem expect_append_of_ne {margin : List Char} (hm : margin.all isSpace = true)
    {symbol other : Char} (hs : isSpace other = false) (hne : other ≠ symbol) (rest : List Char) :
    expect symbol (margin ++ other :: rest) = none := by
  have hdrop : (margin ++ other :: rest).dropWhile isSpace = other :: rest := by
    rw [List.dropWhile_append_of_pos fun c hc => List.all_eq_true.mp hm c hc,
      List.dropWhile_cons_of_neg (by simp [hs])]
  rw [expect, hdrop]
  exact if_neg hne

theorem expect_cons (symbol : Char) (hs : isSpace symbol = false) (rest : List Char) :
    expect symbol (symbol :: rest) = some rest := expect_append List.all_nil symbol hs rest

theorem expect_cons_of_ne {symbol other : Char} (hs : isSpace other = false) (hne : other ≠ symbol)
    (rest : List Char) : expect symbol (other :: rest) = none :=
  expect_append_of_ne List.all_nil hs hne rest

theorem toList_quote (text : String) :
    (quote text).toList = '"' :: (text.toList.flatMap escape ++ ['"']) := by
  simp [quote]

theorem reads_quote (text : String) : Reads string (quote text) text := by
  refine ⟨fun margin rest hm => ?_, ?_⟩
  · have hopen := expect_append hm '"' rfl (text.toList.flatMap escape ++ '"' :: rest)
    have hwhole : margin ++ (quote text).toList ++ rest =
        margin ++ '"' :: (text.toList.flatMap escape ++ '"' :: rest) := by
      simp [toList_quote]
    rw [hwhole, string, hopen]
    simp [characters_flatMap_escape]
  · exact ⟨'"', _, toList_quote text, rfl, by decide⟩

theorem Reads.behind {read : Reader α} {text : String} {value : α} (h : Reads read text value)
    {lead margin : List Char} (hl : lead.all isSpace = true) (hm : margin.all isSpace = true)
    (rest : List Char) : read (lead ++ margin ++ text.toList ++ rest) = some (value, rest) :=
  h.back (lead ++ margin) rest (by rw [List.all_append, hl, hm, Bool.and_self])

/-! ## Arrays -/

variable {read : Reader α} {write : α → String}

theorem items_intercalate {margin : String} (hmargin : margin.toList.all isSpace = true)
    {close : List Char} (hclose : close.all isSpace = true) (rest : List Char) (x : α) (xs : List α)
    (h : ∀ y ∈ x :: xs, Reads read (write y) y) {lead : List Char}
    (hlead : lead.all isSpace = true) :
    items read (lead ++ (",
".intercalate ((x :: xs).map fun y => margin ++ write y)).toList ++
      (close ++ ']' :: rest)) = some (x :: xs, rest) := by
  induction xs generalizing x lead with
  | nil =>
    have hfirst := (h x List.mem_cons_self).behind hlead hmargin (close ++ ']' :: rest)
    rw [items]
    simp only [List.map_cons, List.map_nil, String.intercalate_singleton, String.toList_append]
    rw [← List.append_assoc lead, hfirst]
    simp only [expect_append hclose ']' rfl]
  | cons y ys ih =>
    let body := (",
".intercalate ((y :: ys).map fun y => margin ++ write y)).toList
    let behind := ['
'] ++ body ++ (close ++ ']' :: rest)
    have hsplit : ",
".intercalate ((x :: y :: ys).map fun y => margin ++ write y) =
        margin ++ write x ++ ",
" ++ ",
".intercalate ((y :: ys).map fun y => margin ++ write y) :=
      String.intercalate_cons_cons
    have hwhole : lead ++ (",
".intercalate ((x :: y :: ys).map fun y => margin ++ write y)).toList ++
        (close ++ ']' :: rest) = lead ++ margin.toList ++ (write x).toList ++ ',' :: behind := by
      rw [hsplit]
      simp only [String.toList_append, List.append_assoc, behind, body]
      rfl
    have hnone : expect ']' (',' :: behind) = none := expect_cons_of_ne rfl (by decide) behind
    have hlt : behind.length <
        (lead ++ margin.toList ++ (write x).toList ++ ',' :: behind).length := by
      simp only [List.length_append, List.length_cons]
      omega
    have hmore : items read behind = some (y :: ys, rest) :=
      ih y (fun z hz => h z (List.mem_cons_of_mem x hz)) rfl
    rw [hwhole, items, (h x List.mem_cons_self).behind hlead hmargin]
    simp only [hnone, expect_cons ',' rfl, if_pos hlt, hmore]
    rfl

theorem exists_intercalate_cons (text : String) (more : List String) :
    ∃ rest, ",\n".intercalate (text :: more) = text ++ rest := by
  cases more with
  | nil => exact ⟨"", by simp⟩
  | cons next more => exact ⟨_, String.intercalate_cons_cons.trans (String.append_assoc ..)⟩

/-- An array that is not empty does not end before its first item. -/
theorem expect_intercalate {margin : String} (hmargin : margin.toList.all isSpace = true) {x : α}
    (h : Reads read (write x) x) (xs : List α) (rest : List Char) :
    expect ']' (['\n'] ++ (",\n".intercalate ((x :: xs).map fun y => margin ++ write y)).toList ++
      rest) = none := by
  obtain ⟨more, hmore⟩ :=
    exists_intercalate_cons (margin ++ write x) (xs.map fun y => margin ++ write y)
  obtain ⟨c, behind, hc, hspace, hne⟩ := h.head
  have hlead : (['\n'] ++ margin.toList).all isSpace = true := by
    rw [List.all_append, hmargin]
    rfl
  have hnone := expect_append_of_ne hlead hspace hne (behind ++ more.toList ++ rest)
  rw [List.map_cons, hmore, String.toList_append, String.toList_append, hc]
  simpa using hnone

theorem reads_array {margin : String} (hmargin : margin.toList.all isSpace = true) (xs : List α)
    (h : ∀ x ∈ xs, Reads read (write x) x) :
    Reads (array read) (Listing.array margin (xs.map write)) xs := by
  cases xs with
  | nil =>
    have htext : (Listing.array margin (List.map write [])).toList = ['[', ']'] := by
      simp [Listing.array]
    refine ⟨fun lead rest hl => ?_, '[', [']'], htext, rfl, by decide⟩
    have hopen := expect_append hl '[' rfl (']' :: rest)
    rw [htext, List.append_assoc]
    simp only [array, List.cons_append, List.nil_append, hopen, expect_cons ']' rfl,
      Option.bind_eq_bind, Option.bind_some]
    rfl
  | cons x xs =>
    have hwide : (margin ++ "  ").toList.all isSpace = true := by
      rw [String.toList_append, List.all_append, hmargin]
      rfl
    have hclose : ('\n' :: margin.toList).all isSpace = true := by
      rw [List.all_cons, hmargin]
      rfl
    let body := (",\n".intercalate ((x :: xs).map fun y => margin ++ "  " ++ write y)).toList
    have htext : (Listing.array margin ((x :: xs).map write)).toList =
        '[' :: (['\n'] ++ body ++ ('\n' :: margin.toList ++ [']'])) := by
      have hlist : ((x :: xs).map write).map (margin ++ "  " ++ ·) =
          (x :: xs).map fun y => margin ++ "  " ++ write y := List.map_map
      have hne : ((x :: xs).map write).isEmpty = false := rfl
      simp only [Listing.array, hne, Bool.false_eq_true, if_false, hlist, String.toList_append,
        List.append_assoc, body]
      rfl
    refine ⟨fun lead rest hl => ?_, '[', _, htext, rfl, by decide⟩
    have hitems : items read (['\n'] ++ body ++ ('\n' :: margin.toList ++ ']' :: rest)) =
        some (x :: xs, rest) := items_intercalate hwide hclose rest x xs h rfl
    have hnone := expect_intercalate hwide (h x List.mem_cons_self) xs
      ('\n' :: margin.toList ++ ']' :: rest)
    have hwhole : lead ++ (Listing.array margin ((x :: xs).map write)).toList ++ rest =
        lead ++ '[' :: (['\n'] ++ body ++ ('\n' :: margin.toList ++ ']' :: rest)) := by
      rw [htext]
      simp
    rw [hwhole]
    simp only [array, expect_append hl '[' rfl, Option.bind_eq_bind, Option.bind_some, body]
      at hitems ⊢
    rw [hnone]
    exact hitems

/-! ## Objects -/

theorem member_quote {read : Reader α} (name : String) {lead : List Char}
    (hl : lead.all isSpace = true) (rest : List Char) :
    member name read (lead ++ (quote name).toList ++ ':' :: rest) = read rest := by
  rw [member, (reads_quote name).back lead (':' :: rest) hl]
  simp [expect_cons ':' rfl]

theorem reads_object (path : String) (dependencies : List String) :
    Reads item (object path dependencies) ⟨path, dependencies⟩ := by
  let names := (Listing.array "    " (dependencies.map quote)).toList
  have hnames : Reads (array string) (Listing.array "    " (dependencies.map quote)) dependencies :=
    reads_array rfl dependencies fun text _ => reads_quote text
  have htext : (object path dependencies).toList = '\x7b' :: (['\n', ' ', ' ', ' ', ' '] ++
      (quote "path").toList ++ ':' :: ([' '] ++ (quote path).toList ++
        (',' :: (['\n', ' ', ' ', ' ', ' '] ++ (quote "dependencies").toList ++
          ':' :: ([' '] ++ names ++ (['\n', ' ', ' '] ++ ['\x7d'])))))) := by
    have hkey : (quote "path").toList = "\"path\"".toList := by decide
    have hkeys : (quote "dependencies").toList = "\"dependencies\"".toList := by decide
    rw [hkey, hkeys]
    simp [object, names]
  refine ⟨fun lead rest hl => ?_, '\x7b', _, htext, rfl, by decide⟩
  let last := ['\n', ' ', ' '] ++ '\x7d' :: rest
  let second := ['\n', ' ', ' ', ' ', ' '] ++ (quote "dependencies").toList ++
    ':' :: ([' '] ++ names ++ last)
  let first := ['\n', ' ', ' ', ' ', ' '] ++ (quote "path").toList ++
    ':' :: ([' '] ++ (quote path).toList ++ ',' :: second)
  have hfirst : member "path" string first = some (path, ',' :: second) :=
    (member_quote "path" rfl _).trans ((reads_quote path).back [' '] _ rfl)
  have hsecond : member "dependencies" (array string) second = some (dependencies, last) :=
    (member_quote "dependencies" rfl _).trans (hnames.back [' '] last rfl)
  have hlast : expect '\x7d' last = some rest := expect_append rfl '\x7d' rfl rest
  have hwhole : lead ++ (object path dependencies).toList ++ rest = lead ++ '\x7b' :: first := by
    rw [htext]
    simp [first, second, last]
  rw [hwhole, item, expect_append hl '\x7b' rfl]
  simp only [Option.bind_eq_bind, Option.bind_some, hfirst, expect_cons ',' rfl, hsecond, hlast]
  rfl

end Reader

/-- The items of a listing; behind them there may be nothing but white space. -/
def read? (text : List Char) : Option (List Item) :=
  match Reader.array Reader.item text with
  | some (items, rest) => if rest.all Reader.isSpace then some items else none
  | none => none

/-- What is listed can be read from the listing. -/
theorem read?_json (p : Plan) : read? (json p).toList = some (items p) := by
  have harray : Reader.Reads (Reader.array Reader.item)
      (array "" ((items p).map fun item => object item.path item.dependencies)) (items p) :=
    Reader.reads_array rfl (items p) fun item _ => Reader.reads_object item.path item.dependencies
  have hread := harray.back [] ['\n'] rfl
  have htext : (json p).toList = [] ++ (array "" ((items p).map fun item =>
      object item.path item.dependencies)).toList ++ ['\n'] := by
    simp [json]
  rw [read?, htext, hread]
  rfl

end SourceBundle.Listing
