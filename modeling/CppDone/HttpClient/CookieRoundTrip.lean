import CppDone.HttpClient.Cookie

/-!
# Writing the cookie file and reading it back

`line` and `readCookie` agree on the fields of a record, as long as the value is not empty
(`ofElems_line`). What they do not agree on is where a record ends: `readFile` takes records to
be lines, and `writeFile` ends neither its header nor any record with a line end. Everything it
writes is therefore the tail of the fourth header line, a comment, and reading back gives no
cookie at all.
-/

set_option autoImplicit false

namespace CppDone

/-- The text has none of the three characters the file format gives a meaning to. -/
structure Clean (s : Str) : Prop where
  tab : '\t' ∉ s
  newline : '\n' ∉ s
  nul : '\x00' ∉ s

/-- A cookie whose record the format can carry: clean fields, and a domain that is neither empty nor
read as a comment, a dotted domain or an HttpOnly prefix. Nothing is asked of the flags, which are
written as words. -/
structure CookieInfo.Writable (c : CookieInfo) : Prop where
  domain : Clean c.domain
  path : Clean c.path
  expires : Clean c.expires
  name : Clean c.name
  value : Clean c.value
  domain_ne : c.domain ≠ []
  domain_hash : c.domain.head? ≠ some '#'
  domain_dot : c.domain.head? ≠ some '.'
  domain_httpOnly : ¬ HttpCookie.httpOnly <:+: c.domain

namespace HttpCookie

/-! ## One record

The fields of a record survive: a line that is written and split again has the same seven items,
unless the last one is empty. So it is not the records that the round trip fails on. -/

theorem boolText_clean (b : Bool) : Clean (boolText b) := by
  cases b with
  | false => exact ⟨by decide, by decide, by decide⟩
  | true => exact ⟨by decide, by decide, by decide⟩

theorem isTRUE_boolText (b : Bool) : isTRUE (boolText b) = b := by
  cases b with
  | false => decide
  | true => decide

theorem not_mem_cstr {s : Str} {c : Char} (h : c ∉ s) : c ∉ cstr s :=
  fun hc => h (List.takeWhile_subset _ hc)

theorem newline_not_mem_line {c : CookieInfo} (h : c.Writable) : '\n' ∉ line c := by
  have hb := fun b => (boolText_clean b).newline
  unfold line
  simp [h.domain.newline, h.path.newline, h.expires.newline, h.name.newline, h.value.newline, hb]

/-- The fields of a record, read back. An empty value is no field at all to `getline`, and
`elems[6]` is then an access behind the end. -/
theorem ofElems_line {c : CookieInfo} (h : c.Writable) :
    ofElems (getlines '\t' (line c)) = if c.value = [] then none else some c := by
  have hfields : getlines '\t' (line c) = c.domain :: boolText c.tailMatch :: c.path ::
      boolText c.secure :: c.expires :: c.name :: getlines '\t' c.value := by
    unfold line
    simp only [List.append_assoc, List.cons_append]
    rw [getlines_append_delim h.domain.tab, getlines_append_delim (boolText_clean _).tab,
      getlines_append_delim h.path.tab, getlines_append_delim (boolText_clean _).tab,
      getlines_append_delim h.expires.tab, getlines_append_delim h.name.tab]
  have hdomain : stripDot c.domain = c.domain := if_neg h.domain_dot
  rw [hfields]
  split_ifs with hv
  · rw [hv]
    rfl
  · rw [getlines_of_not_mem h.value.tab hv]
    simp [ofElems, hdomain, isTRUE_boolText]

/-! ## Comments

What begins with a number sign is dropped by the reader before it looks at fields. -/

/-- The dropped `substr` never throws: a line with the prefix in it is long enough. -/
theorem skipHttpOnly_eq (cookie : Str) : skipHttpOnly cookie = some cookie := by
  unfold skipHttpOnly
  split
  · next hin =>
    have hlen : 10 ≤ cookie.length := hin.length_le
    rw [substr, if_pos hlen, Option.map_some]
  · rfl

theorem readCookie_comment {cookie : Str} (h : cookie.head? = some '#')
    (cookies_ : List CookieInfo) : readCookie cookies_ cookie = some cookies_ := by
  have hne : cookie ≠ [] := by
    rintro rfl
    cases h
  unfold readCookie
  rw [if_neg hne, skipHttpOnly_eq]
  exact if_pos h

theorem foldlM_readCookie_comments {cookieVec : List Str}
    (h : ∀ cookie ∈ cookieVec, cookie.head? = some '#') (cookies_ : List CookieInfo) :
    cookieVec.foldlM readCookie cookies_ = some cookies_ := by
  induction cookieVec with
  | nil => rfl
  | cons cookie cookieVec ih =>
    rw [List.foldlM_cons, readCookie_comment (h _ List.mem_cons_self)]
    exact ih fun c hc => h c (List.mem_cons_of_mem _ hc)

/-! ## The file

Whatever is written comes behind a number sign and in front of the first line end. The reader finds
one line more than the header has ended, and it is a comment. -/

/-- Everything after the header. -/
def records (h : HttpCookie) : Str := h.cookies_.flatMap fun item => cstr (line item)

theorem writeFile_eq (h : HttpCookie) : h.writeFile = header ++ h.records := by
  obtain ⟨cookies_⟩ := h
  simp only [writeFile, records]
  generalize header = out
  induction cookies_ generalizing out with
  | nil => simp
  | cons item cookies_ ih => simp [ih]

theorem newline_not_mem_records {h : HttpCookie} (hw : ∀ c ∈ h.cookies_, c.Writable) :
    '\n' ∉ h.records := by
  unfold records
  rw [List.mem_flatMap]
  rintro ⟨c, hc, hmem⟩
  exact not_mem_cstr (newline_not_mem_line (hw c hc)) hmem

/-- All records are on the last header line. -/
theorem getlines_writeFile {h : HttpCookie} (hw : ∀ c ∈ h.cookies_, c.Writable) :
    getlines '\n' h.writeFile =
      ["# Netscape HTTP Cookie File".toList,
       "# http://curl.haxx.se/docs/http-cookies.html".toList,
       "# This file was generated by HttpClient! Edit at your own risk.".toList,
       "# Test HttpClient cookie write".toList ++ h.records] := by
  have hlast : '\n' ∉ "# Test HttpClient cookie write".toList ++ h.records := by
    rw [List.mem_append, not_or]
    exact ⟨by decide, newline_not_mem_records hw⟩
  have hne : "# Test HttpClient cookie write".toList ++ h.records ≠ [] :=
    List.append_ne_nil_of_left_ne_nil (by decide) _
  rw [writeFile_eq]
  delta header
  simp only [List.append_assoc, List.cons_append]
  rw [getlines_append_delim (by decide), getlines_append_delim (by decide),
    getlines_append_delim (by decide), getlines_of_not_mem hlast hne]

/-- **What is written reads back as nothing**, whatever was written and whatever the reader
held. -/
theorem readFile_writeFile {h : HttpCookie} (hw : ∀ c ∈ h.cookies_, c.Writable)
    (prior : HttpCookie) : prior.readFile h.writeFile = some { cookies_ := [] } := by
  have hlines := getlines_writeFile hw
  have hne : h.writeFile ≠ [] := by
    intro heq
    rw [heq] at hlines
    cases hlines
  have hvec : getlines '\n' h.writeFile ≠ [] := by
    rw [hlines]
    exact List.cons_ne_nil _ _
  have hcomments : ∀ cookie ∈ getlines '\n' h.writeFile, cookie.head? = some '#' := by
    rw [hlines]
    simp only [List.forall_mem_cons]
    exact ⟨by decide, by decide, by decide, by rw [List.head?_append]; rfl, by simp⟩
  unfold readFile
  rw [if_neg hne, if_neg hvec, foldlM_readCookie_comments hcomments]
  rfl

/-- **The round trip holds for the empty list alone.** -/
theorem readFile_writeFile_iff (cookies : List CookieInfo) (hw : ∀ c ∈ cookies, c.Writable)
    (prior : HttpCookie) :
    prior.readFile (HttpCookie.writeFile { cookies_ := cookies }) = some { cookies_ := cookies } ↔
      cookies = [] := by
  have hread : prior.readFile (HttpCookie.writeFile { cookies_ := cookies })
      = some { cookies_ := [] } := readFile_writeFile hw prior
  rw [hread, Option.some.injEq, HttpCookie.mk.injEq]
  exact eq_comm

/-- A session cookie that the format can carry. -/
def sid : CookieInfo :=
  { domain := "example.com".toList, tailMatch := true, path := "/".toList, secure := false,
    expires := "0".toList, name := "sid".toList, value := "abc".toList }

theorem sid_writable : sid.Writable where
  domain := ⟨by decide, by decide, by decide⟩
  path := ⟨by decide, by decide, by decide⟩
  expires := ⟨by decide, by decide, by decide⟩
  name := ⟨by decide, by decide, by decide⟩
  value := ⟨by decide, by decide, by decide⟩
  domain_ne := by decide
  domain_hash := by decide
  domain_dot := by decide
  domain_httpOnly := by decide

theorem readFile_writeFile_iff_sid :
    HttpCookie.readFile { cookies_ := [sid] } (HttpCookie.writeFile { cookies_ := [sid] }) =
      some { cookies_ := [sid] } ↔ [sid] = [] :=
  readFile_writeFile_iff [sid] (by simp [sid_writable]) { cookies_ := [sid] }

/-- One cookie is lost. -/
theorem sid_lost :
    sid.Writable ∧
      HttpCookie.readFile { cookies_ := [] } (HttpCookie.writeFile { cookies_ := [sid] }) ≠
        some { cookies_ := [sid] } := by
  refine ⟨sid_writable, ?_⟩
  have hw : ∀ c ∈ (HttpCookie.mk [sid]).cookies_, c.Writable := by simp [sid_writable]
  rw [readFile_writeFile hw]
  simp

end HttpCookie

end CppDone
