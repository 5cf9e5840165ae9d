import CppDone.HttpClient.CookieFile
import CppDone.Lib.Machine
import CppDone.Lib.Upsert

/-!
# `HttpCookie`: looking cookies up and updating them

`getMatchCookie` and `updateOrAddCookie`, both a scan for the first cookie that fits. What fits is
decided by less than it should be. A cookie of another site fits an url as soon as its domain
occurs anywhere in it, in the path or in a longer host name; a cookie with another name fits an
update as soon as it is on the same domain, and is overwritten.

Both scans are therefore right or wrong by the order of the store, which is what the two
characterisations are about: `getMatchCookie_belongs_iff` for one lookup, `updates_iff` for the
updates of a whole run.
-/

set_option autoImplicit false

namespace CppDone

namespace HttpCookie

/-- The first cookie with `url.find(cookie.domain) != std::string::npos`. -/
def getMatchCookie (h : HttpCookie) (url : Str) : Option CookieInfo :=
  h.cookies_.find? fun cookie => cookie.domain <:+: url

def updateOrAddCookie (h : HttpCookie) (cookie : CookieInfo) : HttpCookie :=
  { cookies_ := upsert (fun item => cookie.domain = item.domain) cookie h.cookies_ }

end HttpCookie

/-! ## Urls and sites

What it means for a cookie to belong to a site, said of the parts of an url. The functions below see
the url as one text. -/

/-- `[scheme://]host[:port][/path][?query][#fragment]`. The characters that introduce a later part
are not in an earlier one, so the text of an url can be taken apart in one way. -/
structure Url where
  scheme : Option Str
  host : Str
  port : Option Str
  path : Option Str
  query : Option Str
  fragment : Option Str
  scheme_chars : ∀ s ∈ scheme, s ≠ [] ∧ ∀ c ∈ s, c ∉ [':', '/', '?', '#']
  host_chars : host ≠ [] ∧ ∀ c ∈ host, c ∉ [':', '/', '?', '#']
  port_chars : ∀ s ∈ port, s ≠ [] ∧ ∀ c ∈ s, c.isDigit
  path_chars : ∀ s ∈ path, ∀ c ∈ s, c ∉ ['?', '#']
  query_chars : ∀ s ∈ query, '#' ∉ s

/-- An optional part of an url behind the character that introduces it. -/
def part (intro : Char) : Option Str → Str
  | none => []
  | some s => intro :: s

namespace Url

def schemeText (u : Url) : Str :=
  match u.scheme with
  | none => []
  | some s => s ++ "://".toList

def text (u : Url) : Str :=
  u.schemeText ++ u.host ++
    (part ':' u.port ++ part '/' u.path ++ part '?' u.query ++ part '#' u.fragment)

theorem host_infix (u : Url) : u.host <:+: u.text :=
  ⟨u.schemeText, part ':' u.port ++ part '/' u.path ++ part '?' u.query ++ part '#' u.fragment, rfl⟩

end Url

/-- The cookie may be sent to the host: the domain is the host or, with `tailMatch`, a parent
domain of it. -/
def CookieInfo.Belongs (c : CookieInfo) (host : Str) : Prop :=
  c.domain = host ∨ c.tailMatch = true ∧ '.' :: c.domain <:+ host

instance (c : CookieInfo) (host : Str) : Decidable (c.Belongs host) :=
  inferInstanceAs (Decidable (_ ∨ _))

namespace HttpCookie

/-! ## `getMatchCookie`

A search for the domain in the url finds the cookies of the url's own site, and any other whose
domain occurs somewhere. The first one found is handed out, so the order of the store decides. -/

theorem domain_infix_of_belongs {c : CookieInfo} {u : Url} (h : c.Belongs u.host) :
    c.domain <:+: u.text := by
  have hhost : c.domain <:+: u.host := by
    rcases h with h | ⟨-, h⟩
    · rw [h]
    · exact ((List.suffix_cons '.' c.domain).trans h).isInfix
  exact hhost.trans u.host_infix

/-- **A lookup hands out cookies of the url's own site only** exactly when every cookie of another
site whose domain occurs somewhere in the url is stored behind a cookie of the site. -/
theorem getMatchCookie_belongs_iff (h : HttpCookie) (u : Url) :
    (∀ c, h.getMatchCookie u.text = some c → c.Belongs u.host) ↔
      ∀ pre c post, h.cookies_ = pre ++ c :: post → c.domain <:+: u.text →
        ¬ c.Belongs u.host → ∃ d ∈ pre, d.Belongs u.host := by
  constructor
  · intro hown pre c post hstore hin hother
    cases hfound : pre.find? fun cookie => cookie.domain <:+: u.text with
    | none =>
      -- nothing in front of the cookie fits, so it is the one that is handed out
      have hmatch : h.getMatchCookie u.text = some c := by
        rw [getMatchCookie, hstore, List.find?_append, hfound]
        simp [hin]
      exact absurd (hown c hmatch) hother
    | some d =>
      have hmatch : h.getMatchCookie u.text = some d := by
        rw [getMatchCookie, hstore, List.find?_append, hfound]
        rfl
      exact ⟨d, List.mem_of_find?_eq_some hfound, hown d hmatch⟩
  · intro hbehind c hmatch
    obtain ⟨hin, pre, post, hstore, hfirst⟩ := List.find?_eq_some_iff_append.mp hmatch
    by_contra hother
    obtain ⟨d, hd, hbelongs⟩ := hbehind pre c post hstore (by simpa using hin) hother
    have hout := hfirst d hd
    simp only [Bool.not_eq_true', decide_eq_false_iff_not] at hout
    exact hout (domain_infix_of_belongs hbelongs)

def bankCookie : CookieInfo :=
  { domain := "bank.com".toList, tailMatch := false, path := "/".toList, secure := true,
    expires := "0".toList, name := "sid".toList, value := "abc".toList }

/-- `http://evil.com/bank.com`. -/
def evilUrl : Url where
  scheme := some "http".toList
  host := "evil.com".toList
  port := none
  path := some "bank.com".toList
  query := none
  fragment := none
  scheme_chars := by simp
  host_chars := by simp
  port_chars := nofun
  path_chars := by simp
  query_chars := nofun

/-- The cookie goes to a site that has its domain in the path. -/
theorem bank_cookie_for_evil :
    HttpCookie.getMatchCookie { cookies_ := [bankCookie] } evilUrl.text = some bankCookie ∧
      ¬ bankCookie.Belongs evilUrl.host := by
  decide

/-! ## `updateOrAddCookie`

A cookie is known by its domain, its path and its name; the loop compares domains only. The first
cookie on the domain is overwritten, whichever it is. -/

end HttpCookie

/-- What tells one cookie from another. -/
def CookieInfo.key (c : CookieInfo) : Str × Str × Str := (c.domain, c.path, c.name)

/-- The update with `c` did what it is for, and nothing else. The cookies under other keys are as
before and in their order, and the store has no key twice that it did not have twice. -/
structure Updated (c : CookieInfo) (before after : List CookieInfo) : Prop where
  stored : c ∈ after
  others : after.filter (fun d => d.key ≠ c.key) = before.filter (fun d => d.key ≠ c.key)
  nodup : (before.map CookieInfo.key).Nodup → (after.map CookieInfo.key).Nodup

/-- The first stored cookie on the domain of `c`, if there is one, is the cookie to be updated. This
is what the loop finds, which compares domains and stops at the first one. -/
def FirstIsSame (c : CookieInfo) (stored : List CookieInfo) : Prop :=
  ∀ item, stored.find? (fun item => c.domain = item.domain) = some item → item.key = c.key

namespace HttpCookie

theorem updateOrAddCookie_iff (h : HttpCookie) (c : CookieInfo) :
    Updated c h.cookies_ (h.updateOrAddCookie c).cookies_ ↔ FirstIsSame c h.cookies_ := by
  constructor
  · intro hup
    exact (filter_upsert_iff _ c CookieInfo.key h.cookies_).mp hup.others
  · intro hsame
    have hdomain : ∀ item : CookieInfo, item.key = c.key → c.domain = item.domain := by
      intro item hkey
      exact (congrArg Prod.fst hkey).symm
    exact
      { stored := mem_upsert _ c h.cookies_
        others := (filter_upsert_iff _ c CookieInfo.key h.cookies_).mpr hsame
        nodup := nodup_map_upsert _ c CookieInfo.key hdomain hsame }

/-- A store and the updates it is given. -/
def updates (h : HttpCookie) : Machine HttpCookie CookieInfo where
  init := h
  step h c := some (h.updateOrAddCookie c)

/-- **Every update of a run leaves the other cookies alone** exactly when every update finds its
own cookie first on its domain, or none. -/
theorem updates_iff (h : HttpCookie) (cs : List CookieInfo) :
    (updates h).Meets (fun h c => Updated c h.cookies_ (h.updateOrAddCookie c).cookies_) cs ↔
      (updates h).Meets (fun h c => FirstIsSame c h.cookies_) cs := by
  simp only [updateOrAddCookie_iff]

def themeCookie : CookieInfo :=
  { sidRecord.cookie with name := "theme".toList, value := "dark".toList }

/-- A file with one cookie is loaded, another cookie of the site is set, and the first is gone. -/
theorem theme_replaces_sid :
    HttpCookie.readFile { cookies_ := [] } (fileText true [.record sidRecord (by decide)]) =
        some { cookies_ := [sidRecord.cookie] } ∧
      ¬ (updates { cookies_ := [sidRecord.cookie] }).Meets
          (fun h c => Updated c h.cookies_ (h.updateOrAddCookie c).cookies_) [themeCookie] := by
  refine ⟨by decide, ?_⟩
  intro hall
  have hup := hall [] themeCookie [] { cookies_ := [sidRecord.cookie] } rfl rfl
  exact absurd hup.others (by decide)

/-! ### Whole runs

Two conditions on a run that can be checked beforehand: a cookie is safe from updates that are about
other domains or find their own cookie first, and a site with one cookie has nothing to lose. -/

/-- A cookie that no update is about outlives a run of such updates. -/
theorem mem_of_firstIsSame {h : HttpCookie} {cs : List CookieInfo}
    (hsame : (updates h).Meets (fun h c => FirstIsSame c h.cookies_) cs) {d : CookieInfo}
    (hd : d ∈ h.cookies_) (hother : ∀ c ∈ cs, d.key ≠ c.key) {h' : HttpCookie}
    (hrun : (updates h).run cs = some h') : d ∈ h'.cookies_ := by
  have hboth : (updates h).Meets
      (fun h c => FirstIsSame c h.cookies_ ∧ d.key ≠ c.key) cs := by
    intro pre c post s he hs
    exact ⟨hsame pre c post s he hs, hother c (by rw [he]; simp)⟩
  refine hboth.inv (I := fun s => d ∈ s.cookies_) hd ?_ hrun
  intro s c s' hmem hok hs
  obtain rfl : s.updateOrAddCookie c = s' := Option.some.inj hs
  have hup := (updateOrAddCookie_iff s c).mpr hok.1
  have hin : d ∈ s.cookies_.filter (fun d => d.key ≠ c.key) :=
    List.mem_filter.mpr ⟨hmem, by simpa using hok.2⟩
  rw [← hup.others] at hin
  exact (List.mem_filter.mp hin).1

/-- Sites with one cookie each are safe: updates never meet a cookie of another key. -/
theorem firstIsSame_of_one_key {h : HttpCookie} {cs : List CookieInfo}
    (hone : ∀ a ∈ h.cookies_ ++ cs, ∀ b ∈ h.cookies_ ++ cs, a.domain = b.domain → a.key = b.key) :
    (updates h).Meets (fun h c => FirstIsSame c h.cookies_) cs := by
  have hcs : (updates h).Meets (fun _ c => c ∈ cs) cs := by
    intro pre c post s he hs
    rw [he]
    simp
  -- the store never holds anything but what was loaded or set
  refine hcs.imp (I := fun s => ∀ d ∈ s.cookies_, d ∈ h.cookies_ ++ cs) ?_ ?_ ?_
  · intro d hd
    exact List.mem_append_left cs hd
  · intro s c s' hstored hc hs d hd
    obtain rfl : s.updateOrAddCookie c = s' := Option.some.inj hs
    rcases mem_of_mem_upsert _ c hd with rfl | hd
    · exact List.mem_append_right _ hc
    · exact hstored d hd
  · intro s c hstored hc item hitem
    have hdomain : c.domain = item.domain := by simpa using List.find?_some hitem
    exact hone item (hstored item (List.mem_of_find?_eq_some hitem)) c
      (List.mem_append_right _ hc) hdomain.symm

end HttpCookie

end CppDone
