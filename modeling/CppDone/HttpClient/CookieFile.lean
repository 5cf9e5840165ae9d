import CppDone.HttpClient.CookieRoundTrip

/-!
# The cookie file as a grammar

What a Netscape cookie file is, said independently of `readFile`: a sequence of lines, each of
them blank, a comment or a record of seven fields, the record with or without the HttpOnly
prefix. A line that begins with `#` and not with the prefix is a comment, so an `Entry` of the
grammar is never both.

`readFile` agrees with the grammar up to three points. It drops what `substr(10)` returns and
takes an HttpOnly record for a comment; it reads `elems[6]` of a record whose last field is empty,
where `getline` has delivered six items; and it compares flags with `strcmp`, for which a field
is over at its first NUL. `readFile_fileText_iff` says that these are all.

The last section is about bytes that are no cookie file at all: `readFile_isSome_iff` tells which
of them are read without an access behind the end of `elems`.
-/

set_option autoImplicit false

namespace CppDone

namespace HttpCookie

/-! ## The grammar

Said of texts, with nothing of the reader in it. That a field has no tab and no line end in it is
part of what a field is, so a record is never in need of quoting. -/

/-- A text that fits between two tabs of a line. An empty text is a field as well, except where a
record says otherwise. -/
structure Field where
  text : Str
  tab : '\t' ∉ text
  newline : '\n' ∉ text

/-- The seven fields of a cookie in the order of the file. A record without a domain is none: its
line would begin with the tab. -/
structure Record where
  domain : Field
  tailMatch : Field
  path : Field
  secure : Field
  expires : Field
  name : Field
  value : Field
  domain_ne : domain.text ≠ []

namespace Record

/-- The fields that have a tab behind them. -/
def keys (r : Record) : List Str :=
  [r.domain.text, r.tailMatch.text, r.path.text, r.secure.text, r.expires.text, r.name.text]

def text (r : Record) : Str := r.keys.flatMap (fun key => key ++ ['\t']) ++ r.value.text

/-- The cookie that the record stands for. -/
def cookie (r : Record) : CookieInfo :=
  { domain := stripDot r.domain.text, tailMatch := r.tailMatch.text = "TRUE".toList,
    path := r.path.text, secure := r.secure.text = "TRUE".toList, expires := r.expires.text,
    name := r.name.text, value := r.value.text }

end Record

/-- A line of the file. What begins with `#` is a comment, unless it begins with the prefix. The
conditions on the first characters make the four kinds exclude each other, so a line has one
reading. -/
inductive Entry where
  | blank
  | comment (text : Str) (newline : '\n' ∉ text) (other : ¬ httpOnly <+: '#' :: text)
  | record (r : Record) (domain_hash : r.domain.text.head? ≠ some '#')
  | httpOnlyRecord (r : Record)

namespace Entry

def text : Entry → Str
  | blank => []
  | comment text _ _ => '#' :: text
  | record r _ => r.text
  | httpOnlyRecord r => httpOnly ++ r.text

/-- What the line contributes to `cookies_`. -/
def cookies : Entry → List CookieInfo
  | blank => []
  | comment _ _ _ => []
  | record r _ => [r.cookie]
  | httpOnlyRecord r => [r.cookie]

end Entry

/-- The file, its last line with (`ended`) or without a line end. -/
def fileText (ended : Bool) : List Entry → Str
  | [] => []
  | [e] => e.text ++ if ended then ['\n'] else []
  | e :: e' :: es => e.text ++ '\n' :: fileText ended (e' :: es)

/-! ## What `readFile` makes of one line

Of every kind of line it is said when the reader takes it for what it is. The exceptions are listed
in `Entry.Plain`, and `Entry.read` says what the reader makes of them instead. -/

/-- A flag field is read as the format means it. `strcmp` ends a field at its first NUL. -/
def Flag (f : Field) : Prop := ¬ "TRUE".toList ++ ['\x00'] <+: f.text

/-- The line is none of those that `readFile` takes for something else. -/
def Entry.Plain : Entry → Prop
  | .blank => True
  | .comment _ _ _ => True
  | .record r _ => r.value.text ≠ [] ∧ Flag r.tailMatch ∧ Flag r.secure
  | .httpOnlyRecord _ => False

instance (f : Field) : Decidable (Flag f) := inferInstanceAs (Decidable (¬ _))

/-- What the loop appends to `cookies_` for the line, with `none` where it reads past `elems`. -/
def Entry.read : Entry → Option (List CookieInfo)
  | .blank => some []
  | .comment _ _ _ => some []
  | .record r _ =>
    if r.value.text = [] then none
    else some [{ r.cookie with tailMatch := isTRUE r.tailMatch.text,
                               secure := isTRUE r.secure.text }]
  | .httpOnlyRecord _ => some []

/-- A C string is a given text when the bytes are that text, or begin with it and a NUL. -/
theorem cstr_eq_iff {s t : Str} (ht : '\x00' ∉ t) :
    cstr s = t ↔ s = t ∨ t ++ ['\x00'] <+: s := by
  constructor
  · intro h
    have hsplit : cstr s ++ s.dropWhile (· ≠ '\x00') = s := List.takeWhile_append_dropWhile
    have hhead := List.head?_dropWhile_not (· ≠ '\x00') s
    rw [h] at hsplit
    cases hrest : s.dropWhile (· ≠ '\x00') with
    | nil => exact Or.inl (by rw [← hsplit, hrest, List.append_nil])
    | cons c rest =>
      rw [hrest] at hhead hsplit
      have hc : c = '\x00' := by simpa using hhead
      subst hc
      exact Or.inr ⟨rest, by rw [← hsplit, List.append_assoc, List.singleton_append]⟩
  · rintro (rfl | ⟨rest, rfl⟩)
    · have hnil : cstr [] = [] := rfl
      rw [← List.append_nil s, cstr_append ht, hnil]
    · rw [List.append_assoc, List.singleton_append]
      exact cstr_append_nul ht rest

theorem isTRUE_eq_iff (f : Field) :
    isTRUE f.text = decide (f.text = "TRUE".toList) ↔ Flag f := by
  have hne : f.text = "TRUE".toList → Flag f := by
    intro h hpre
    rw [h] at hpre
    exact absurd hpre (by decide)
  rw [isTRUE, decide_eq_decide, cstr_eq_iff (by decide)]
  constructor
  · intro h hpre
    exact hne (h.mp (Or.inr hpre)) hpre
  · intro h
    exact ⟨fun hor => hor.resolve_right h, Or.inl⟩

theorem Entry.read_length (e : Entry) {out : List CookieInfo} (h : e.read = some out) :
    out.length ≤ e.cookies.length := by
  cases e with
  | blank => cases h; rfl
  | comment text hn ho => cases h; rfl
  | record r hr =>
    simp only [Entry.read, Option.ite_none_left_eq_some, Option.some.injEq] at h
    rw [← h.2]
    rfl
  | httpOnlyRecord r => cases h; exact Nat.zero_le _

/-- The line is read as the grammar says exactly when it is plain. -/
theorem Entry.read_eq_iff (e : Entry) : e.read = some e.cookies ↔ e.Plain := by
  cases e with
  | blank => exact ⟨fun _ => trivial, fun _ => rfl⟩
  | comment text hn ho => exact ⟨fun _ => trivial, fun _ => rfl⟩
  | record r hr =>
    simp only [Entry.read, Entry.cookies, Entry.Plain, Option.ite_none_left_eq_some,
      Option.some.injEq, List.cons.injEq, and_true, ← isTRUE_eq_iff, Record.cookie,
      CookieInfo.mk.injEq, true_and]
  | httpOnlyRecord r => exact ⟨nofun, False.elim⟩

/-! ## The lines of a file

`getline` gives back the fields that were put between tabs and the lines that were put between line
ends, with one exception in both cases: an empty last one is not given. -/

theorem Entry.newline_not_mem_text (e : Entry) : '\n' ∉ e.text := by
  have hrecord : ∀ r : Record, '\n' ∉ r.text := by
    intro r
    simp [Record.text, Record.keys, r.domain.newline, r.tailMatch.newline, r.path.newline,
      r.secure.newline, r.expires.newline, r.name.newline, r.value.newline]
  cases e with
  | blank => exact List.not_mem_nil
  | comment text newline other =>
    rw [Entry.text, List.mem_cons, not_or]
    exact ⟨by decide, newline⟩
  | record r hr => exact hrecord r
  | httpOnlyRecord r =>
    rw [Entry.text, List.mem_append, not_or]
    exact ⟨by decide, hrecord r⟩

/-- The fields of a record, as the inner loop splits them off. -/
theorem getlines_record (r : Record) :
    getlines '\t' r.text = r.keys ++ getlines '\t' r.value.text := by
  refine getlines_flatMap_append ?_ r.value.text
  simp [Record.keys, r.domain.tab, r.tailMatch.tab, r.path.tab, r.secure.tab, r.expires.tab,
    r.name.tab]

theorem ofElems_record (r : Record) :
    ofElems (getlines '\t' r.text) =
      if r.value.text = [] then none
      else some { r.cookie with tailMatch := isTRUE r.tailMatch.text,
                                secure := isTRUE r.secure.text } := by
  rw [getlines_record]
  split_ifs with hv
  · rw [hv]
    rfl
  · rw [getlines_of_not_mem r.value.tab hv]
    rfl

theorem readCookie_nil (cookies_ : List CookieInfo) : readCookie cookies_ [] = some cookies_ :=
  if_pos rfl

theorem readCookie_text (e : Entry) (cookies_ : List CookieInfo) :
    readCookie cookies_ e.text = e.read.map (cookies_ ++ ·) := by
  have hkeep : some cookies_ = (some []).map (cookies_ ++ ·) := by simp
  cases e with
  | blank => exact (readCookie_nil cookies_).trans hkeep
  | comment text newline other => exact (readCookie_comment rfl cookies_).trans hkeep
  | record r hr =>
    have hhead : r.text.head? = r.domain.text.head? := by
      cases hd : r.domain.text with
      | nil => exact absurd hd r.domain_ne
      | cons c s => simp [Record.text, Record.keys, hd]
    have hne : r.text ≠ [] := by simp [Record.text, Record.keys]
    rw [Entry.text, readCookie, if_neg hne, skipHttpOnly_eq, Option.bind_eq_bind,
      Option.bind_some, if_neg (by rw [hhead]; exact hr), ofElems_record, Entry.read]
    split_ifs with hv
    · rfl
    · rfl
  | httpOnlyRecord r =>
    -- the line still has its prefix when it is tested for a comment
    exact (readCookie_comment rfl cookies_).trans hkeep

/-- The loop over the lines of the file is the loop over its entries. A last blank entry that is
not ended is no line, but contributes nothing either. -/
theorem foldlM_getlines (ended : Bool) (es : List Entry) (cookies_ : List CookieInfo) :
    (getlines '\n' (fileText ended es)).foldlM readCookie cookies_ =
      es.foldlM (fun out e => e.read.map (out ++ ·)) cookies_ := by
  -- line by line; only the last one may lack its end
  induction es generalizing cookies_ with
  | nil => rfl
  | cons e es ih =>
    cases es with
    | nil =>
      have hone : [e.text].foldlM readCookie cookies_ =
          [e].foldlM (fun out e => e.read.map (out ++ ·)) cookies_ := by
        simp only [List.foldlM_cons, readCookie_text]
        rfl
      rw [fileText, ← hone]
      cases ended with
      | true =>
        rw [if_pos rfl, getlines_append_delim e.newline_not_mem_text, getlines_nil]
      | false =>
        rw [if_neg Bool.false_ne_true, List.append_nil]
        -- the empty last line is no line for `getline`, and `readCookie` adds nothing for it
        by_cases ht : e.text = []
        · rw [ht, getlines_nil, List.foldlM_cons, readCookie_nil]
          rfl
        · rw [getlines_of_not_mem e.newline_not_mem_text ht]
    | cons e' es =>
      rw [fileText, getlines_append_delim e.newline_not_mem_text, List.foldlM_cons,
        List.foldlM_cons, readCookie_text]
      cases hread : e.read with
      | none => rfl
      | some out => exact ih (cookies_ ++ out)

/-! ## The file

Line by line the reader appends what it takes the line for. It never appends more than the line
stands for, so a file is read as it is meant only if each of its lines is. -/

/-- What the loop collects is never more than the records, and all of them only if every line is
plain. -/
theorem foldlM_read (es : List Entry) {cookies_ out : List CookieInfo}
    (h : es.foldlM (fun out e => e.read.map (out ++ ·)) cookies_ = some out) :
    ∃ added, out = cookies_ ++ added ∧ added.length ≤ (es.flatMap Entry.cookies).length ∧
      (added = es.flatMap Entry.cookies → ∀ e ∈ es, e.Plain) := by
  induction es generalizing cookies_ with
  | nil =>
    cases h
    exact ⟨[], (List.append_nil _).symm, Nat.zero_le _, by simp⟩
  | cons e es ih =>
    rw [List.foldlM_cons] at h
    cases hread : e.read with
    | none =>
      rw [hread] at h
      cases h
    | some first =>
      rw [hread] at h
      obtain ⟨rest, rfl, hlen, hplain⟩ := ih h
      have hfirst := e.read_length hread
      refine ⟨first ++ rest, by rw [List.append_assoc], ?_, ?_⟩
      · rw [List.flatMap_cons, List.length_append, List.length_append]
        omega
      · intro heq
        rw [List.flatMap_cons] at heq
        -- neither part can be longer than what the grammar says, so both agree with it
        have hlength : first.length = e.cookies.length := by
          have := congrArg List.length heq
          rw [List.length_append, List.length_append] at this
          omega
        obtain ⟨hf, hr⟩ := List.append_inj heq hlength
        rw [List.forall_mem_cons]
        exact ⟨e.read_eq_iff.mp (hf ▸ hread), hplain hr⟩

theorem foldlM_read_of_plain {es : List Entry} (h : ∀ e ∈ es, e.Plain)
    (cookies_ : List CookieInfo) :
    es.foldlM (fun out e => e.read.map (out ++ ·)) cookies_ =
      some (cookies_ ++ es.flatMap Entry.cookies) := by
  induction es generalizing cookies_ with
  | nil => simp
  | cons e es ih =>
    rw [List.forall_mem_cons] at h
    rw [List.foldlM_cons, e.read_eq_iff.mpr h.1]
    exact (ih h.2 _).trans (by rw [List.flatMap_cons, List.append_assoc])

/-- **`readFile` reads the records of a cookie file, in order, exactly when every line is plain**:
no record is HttpOnly, none has an empty value, and no flag is `TRUE` up to a NUL. -/
theorem readFile_fileText_iff (prior : HttpCookie) (ended : Bool) (es : List Entry)
    (hne : fileText ended es ≠ []) :
    prior.readFile (fileText ended es) = some { cookies_ := es.flatMap Entry.cookies } ↔
      ∀ e ∈ es, e.Plain := by
  unfold readFile
  rw [if_neg hne, if_neg (getlines_ne_nil hne), foldlM_getlines]
  constructor
  · intro h
    cases hout : es.foldlM (fun out e => e.read.map (out ++ ·)) [] with
    | none =>
      rw [hout] at h
      cases h
    | some out =>
      rw [hout] at h
      have hall : out = es.flatMap Entry.cookies := by
        cases h
        rfl
      obtain ⟨added, rfl, -, hplain⟩ := foldlM_read es hout
      exact hplain hall
  · intro h
    rw [foldlM_read_of_plain h]
    rfl

def sidRecord : Record where
  domain := ⟨".example.com".toList, by decide, by decide⟩
  tailMatch := ⟨"TRUE".toList, by decide, by decide⟩
  path := ⟨"/".toList, by decide, by decide⟩
  secure := ⟨"FALSE".toList, by decide, by decide⟩
  expires := ⟨"0".toList, by decide, by decide⟩
  name := ⟨"sid".toList, by decide, by decide⟩
  value := ⟨"abc".toList, by decide, by decide⟩
  domain_ne := by decide

theorem readFile_fileText_iff_sid :
    HttpCookie.readFile { cookies_ := [] } (fileText true [.record sidRecord (by decide)]) =
        some { cookies_ := [sidRecord.cookie] } ↔
      ∀ e ∈ [Entry.record sidRecord (by decide)], e.Plain :=
  readFile_fileText_iff { cookies_ := [] } true [.record sidRecord (by decide)] (by decide)

/-- An HttpOnly cookie is not read. -/
theorem httpOnly_not_read :
    HttpCookie.readFile { cookies_ := [] } (fileText true [.httpOnlyRecord sidRecord]) ≠
      some { cookies_ := [Entry.httpOnlyRecord sidRecord].flatMap Entry.cookies } := by
  decide

/-! ## Any bytes

Here nothing is known about the file. The loop looks at `elems[0]` to `elems[6]` of every line that
is neither blank nor a comment, and `elems` has as many items as `getline` has found. -/

/-- Seven items are split off the line: it has seven tabs, or six and something behind the last
of them. -/
def Fielded (cookie : Str) : Prop :=
  7 ≤ cookie.count '\t' ∨ cookie.count '\t' = 6 ∧ cookie.getLast? ≠ some '\t'

theorem fielded_iff (cookie : Str) : Fielded cookie ↔ 7 ≤ (getlines '\t' cookie).length := by
  have hempty : cookie = [] → cookie.count '\t' = 0 := by
    rintro rfl
    rfl
  rw [Fielded, length_getlines]
  -- `getline` delivers one item less when the last field is empty
  split_ifs with h
  · constructor
    · rintro (h7 | ⟨h6, hlast⟩)
      · omega
      · rcases h with h | h
        · have := hempty h
          omega
        · exact absurd h hlast
    · intro h7
      exact Or.inl (by omega)
  · rw [not_or] at h
    constructor
    · rintro (h7 | ⟨h6, -⟩)
      · omega
      · omega
    · intro h7
      by_cases h6 : cookie.count '\t' = 6
      · exact Or.inr ⟨h6, h.2⟩
      · exact Or.inl (by omega)

/-- The accesses `elems[0]` to `elems[6]` are all in range exactly when there are seven items. -/
theorem ofElems_isSome (elems : List Str) : (ofElems elems).isSome ↔ 7 ≤ elems.length := by
  constructor
  · intro h
    by_contra hlt
    have hlast : elems[6]? = none := List.getElem?_eq_none (by omega)
    simp [ofElems, hlast] at h
  · intro h
    have hget : ∀ i, i < 7 → ∃ line, elems[i]? = some line := fun i hi =>
      ⟨elems[i], List.getElem?_eq_getElem (by omega)⟩
    obtain ⟨domain, h0⟩ := hget 0 (by decide)
    obtain ⟨tailMatch, h1⟩ := hget 1 (by decide)
    obtain ⟨path, h2⟩ := hget 2 (by decide)
    obtain ⟨secure, h3⟩ := hget 3 (by decide)
    obtain ⟨expires, h4⟩ := hget 4 (by decide)
    obtain ⟨name, h5⟩ := hget 5 (by decide)
    obtain ⟨value, h6⟩ := hget 6 (by decide)
    rw [ofElems, h0, h1, h2, h3, h4, h5, h6]
    rfl

theorem readCookie_isSome (cookies_ : List CookieInfo) (cookie : Str) :
    (readCookie cookies_ cookie).isSome ↔
      cookie = [] ∨ cookie.head? = some '#' ∨ Fielded cookie := by
  by_cases hne : cookie = []
  · rw [hne, readCookie_nil]
    simp
  · by_cases hhash : cookie.head? = some '#'
    · rw [readCookie_comment hhash]
      simp [hhash]
    · have hread : readCookie cookies_ cookie =
          (ofElems (getlines '\t' cookie)).map fun co => cookies_ ++ [co] := by
        rw [readCookie, if_neg hne, skipHttpOnly_eq, Option.bind_eq_bind, Option.bind_some,
          if_neg hhash]
        cases ofElems (getlines '\t' cookie) <;> rfl
      rw [hread, Option.isSome_map, ofElems_isSome, fielded_iff]
      simp [hne, hhash]

theorem foldlM_readCookie_isSome (cookieVec : List Str) (cookies_ : List CookieInfo) :
    (cookieVec.foldlM readCookie cookies_).isSome ↔
      ∀ cookie ∈ cookieVec, cookie = [] ∨ cookie.head? = some '#' ∨ Fielded cookie := by
  induction cookieVec generalizing cookies_ with
  | nil => simp
  | cons cookie cookieVec ih =>
    rw [List.foldlM_cons, List.forall_mem_cons, ← readCookie_isSome cookies_]
    cases hread : readCookie cookies_ cookie with
    | none => simp
    | some cookies => simpa using ih cookies

/-- **`readFile` stays inside `elems` exactly on the files whose lines are fielded**, blank and
comment lines aside. -/
theorem readFile_isSome_iff (prior : HttpCookie) (strFile : Str) :
    (prior.readFile strFile).isSome ↔
      ∀ cookie ∈ getlines '\n' strFile,
        cookie = [] ∨ cookie.head? = some '#' ∨ Fielded cookie := by
  by_cases hempty : strFile = []
  · simp [readFile, hempty]
  · unfold readFile
    rw [if_neg hempty, if_neg (getlines_ne_nil hempty), ← foldlM_readCookie_isSome _ []]
    cases (getlines '\n' strFile).foldlM readCookie [] with
    | none => rfl
    | some cookies => rfl

/-- A session cookie without a value, as `writeFile` would put it into a line. -/
theorem no_value_out_of_range :
    ¬ (HttpCookie.readFile { cookies_ := [] }
        "example.com\tTRUE\t/\tFALSE\t0\tsid\t\n".toList).isSome := by
  decide

end HttpCookie

end CppDone
