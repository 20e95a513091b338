import Mathlib.Data.List.Induction
import Typings.Download.Documents
import Typings.Proofs.CacheNames

/-!
The cache after any history of downloads. For every URL it holds the tag and the
body of the last success that came with a tag, both from the same response;
requests are made with that tag, and the body stands in when the document did
not change or the network fails.

The argument is by what is at the full paths of the cache's files: one download
changes the two files of its own URL at most, and never the way to any file.
-/

namespace Typings

def Response.Succeeds (r : Response) : Prop :=
  200 ≤ r.status ∧ r.status < 300

instance (r : Response) : Decidable r.Succeeds :=
  inferInstanceAs (Decidable (_ ∧ _))

/-- What a reply leaves in a cache: tag and body of a success that
came with a tag. -/
def Reply.kept? : Reply → Option (String × List UInt8)
  | .response r =>
    match r.tag with
    | some tag => if r.Succeeds ∧ tag ≠ "" then some (tag, r.body) else none
    | none => none
  | .trouble _ _ => none

/-- A download with the reply to its request. -/
structure Exchange where
  url : String
  reply : Reply

namespace Exchange

/-- Tag and body of the last success for the URL that came with a tag. -/
def lastKept (history : List Exchange) (url : String) :
    Option (String × List UInt8) :=
  ((history.filter (·.url = url)).filterMap (·.reply.kept?)).getLast?

/-- What a download gives, with the document that is held for its URL. -/
def outcome (x : Exchange) (held : Option (String × List UInt8)) :
    Except Fault (List UInt8) :=
  match x.reply with
  | .trouble kind text =>
    match held with
    | some (_, body) => .ok body
    | none => .error (.network kind text)
  | .response r =>
    if r.Succeeds then .ok r.body
    else match held with
      | some (_, body) =>
          if r.status = 304 then .ok body else .error (.download x.url r.status)
      | none => .error (.download x.url r.status)

variable {x : Exchange} {history : List Exchange} {url : String}

theorem lastKept_concat : lastKept (history ++ [x]) url =
    if x.url = url then x.reply.kept?.or (lastKept history url)
    else lastKept history url := by
  rw [lastKept, List.filter_append, List.filterMap_append]
  by_cases hurl : x.url = url
  · rw [if_pos hurl, List.filter_cons_of_pos (by simpa using hurl),
      List.filter_nil, List.getLast?_append]
    cases hkept : x.reply.kept? with
    | none => simp [hkept, lastKept]
    | some document => simp [hkept]
  · rw [if_neg hurl, List.filter_cons_of_neg (by simpa using hurl),
      List.filter_nil, List.filterMap_nil, List.append_nil, lastKept]

theorem exists_of_lastKept {document : String × List UInt8}
    (h : lastKept history url = some document) :
    ∃ x ∈ history, x.reply.kept? = some document := by
  obtain ⟨x, hx, hkept⟩ := List.mem_filterMap.mp (List.mem_of_getLast? h)
  exact ⟨x, (List.mem_filter.mp hx).1, hkept⟩

end Exchange

theorem Reply.kept?_eq_some_iff {reply : Reply} {tag : String}
    {body : List UInt8} :
    reply.kept? = some (tag, body) ↔
      ∃ status, reply = .response ⟨status, some tag, body⟩ ∧
      Response.Succeeds ⟨status, some tag, body⟩ ∧ tag ≠ "" := by
  constructor
  · intro h
    rcases reply with ⟨⟨status, _ | tag', body'⟩⟩ | ⟨kind, text⟩
    · cases h
    · rw [kept?] at h
      dsimp only at h
      split at h
      · rename_i hkept
        cases h
        exact ⟨status, rfl, hkept⟩
      · cases h
    · cases h
  · rintro ⟨status, rfl, hkept⟩
    exact if_pos hkept

theorem Reply.kept?_eq_none {reply : Reply}
    (h : ∀ r, reply = .response r → ¬ r.Succeeds) :
    reply.kept? = none := by
  refine Option.eq_none_iff_forall_ne_some.mpr fun document hkept => ?_
  obtain ⟨status, hreply, hstatus, -⟩ := kept?_eq_some_iff.mp hkept
  exact h _ hreply hstatus

theorem Reply.untagged_of_kept? {r : Response}
    (h : (Reply.response r).kept? = none) (hstatus : r.Succeeds) :
    r.tag = none ∨ r.tag = some "" := by
  cases htag : r.tag with
  | none => exact Or.inl rfl
  | some tag =>
      by_cases hne : tag = ""
      · exact Or.inr (congrArg some hne)
      · rw [kept?, htag] at h
        dsimp only at h
        rw [if_pos ⟨hstatus, hne⟩] at h
        cases h

namespace Cache

/-- No write to the files of the URL fails. -/
def CanKeep (cache : Cache) (url : String) (s : Session) : Prop :=
  ∀ tag body, (cache.keep url tag body s).1 = .ok ⟨⟩

/-- The store has what should be held in the files of the URLs that have room,
and nothing else there. -/
structure Holds (folder : Location) (room : String → Prop) (s : Store)
    (held : String → Option (String × List UInt8)) : Prop where
  admits : ∀ url half, room url → s.Admits (Half.file folder url half)
  node : ∀ url half, room url →
    s.node? (s.fullPath (Half.file folder url half)) = (held url).map fun d =>
      .file (half.bytes d)
  around : ∀ url document, room url → held url = some document →
    ∀ q ∈ s.trail folder, s.node? q = some .folder

variable {cache : Cache} {folder : Location} {room : String → Prop}
  {s s' : Session} {held : String → Option (String × List UInt8)}
  {url tag : String} {body : List UInt8}

/-- Nothing is kept without a tag. -/
theorem keep_of_untagged {tag : Option String}
    (htag : tag = none ∨ tag = some "") :
    cache.keep url tag body s = (.ok ⟨⟩, s) := by
  rcases htag with rfl | rfl
  · rw [keep]
    · rfl
    · exact fun folder tag _ h => nomatch h
  · unfold keep
    cases cache.folder <;> rfl

/-- The steps of keeping a document. -/
theorem keep_eq_ok_iff (hfolder : cache.folder = some folder)
    (htag : tag ≠ "") :
    cache.keep url (some tag) body s = (.ok ⟨⟩, s') ↔
      ∃ s₁ s₂ s₃, s.store.makeFolders folder = (.ok ⟨⟩, s₁) ∧
        s₁.write (Half.file folder url .body) body = .ok s₂ ∧
        s₂.write (Half.file folder url .tag) (Half.bytes (tag, body) .tag) =
          .ok s₃ ∧
        s' = { s with store := s₃ } := by
  have hrun : cache.keep url (some tag) body = (do
      Job.makeFolders folder
      Job.change fun s => s.write (Half.file folder url .body) body
      Job.change fun s =>
        s.write (Half.file folder url .tag) (Half.bytes (tag, body) .tag)) := by
    simp only [keep, hfolder, if_neg htag]
    rfl
  rw [hrun]
  constructor
  · intro h
    obtain ⟨⟨⟩, _, hfolders, h⟩ := Step.bind_eq_ok_iff.mp h
    obtain ⟨⟨⟩, _, hfirst, hlast⟩ := Step.bind_eq_ok_iff.mp h
    obtain ⟨s₁, hmade, rfl⟩ := Job.makeFolders_eq_ok_iff.mp hfolders
    obtain ⟨s₂, hbody, rfl⟩ := Job.change_eq_ok_iff.mp hfirst
    obtain ⟨s₃, htag, rfl⟩ := Job.change_eq_ok_iff.mp hlast
    exact ⟨s₁, s₂, s₃, hmade, hbody, htag, rfl⟩
  · rintro ⟨s₁, s₂, s₃, hmade, hbody, htag, rfl⟩
    have hfirst :
        Job.change (fun s => s.write (Half.file folder url .body) body) { s with
          store := s₁ } =
        (.ok ⟨⟩, { s with store := s₂ }) :=
      Job.change_eq_ok_iff.mpr ⟨s₂, hbody, rfl⟩
    rw [Step.bind_of_ok (Job.makeFolders_eq_ok_iff.mpr ⟨s₁, hmade, rfl⟩),
      Step.bind_of_ok hfirst]
    exact Job.change_eq_ok_iff.mpr ⟨s₃, htag, rfl⟩

theorem way_body (url : String) {s : Store} :
    s.way (Half.file folder url .body) = s.trail folder :=
  Half.way_file

theorem way_tag_eq_body (s : Store) :
    s.way (Half.file folder url .tag) = s.way (Half.file folder url .body) := by
  rw [Half.way_file, Half.way_file]

theorem fullPath_tag_ne_body (s : Store) :
    s.fullPath (Half.file folder url .tag) ≠
      s.fullPath (Half.file folder url .body) :=
  fun he => nomatch (Half.fullPath_file_inj he).2

/-- If a document can be kept, its files can be written. -/
theorem admits_of_keep (hfolder : cache.folder = some folder) (htag : tag ≠ "")
    (h : cache.keep url (some tag) body s = (.ok ⟨⟩, s')) (half : Half) :
    s.store.Admits (half.file folder url) := by
  obtain ⟨s₁, s₂, s₃, hmade, hbody, htag, -⟩ :=
    (keep_eq_ok_iff hfolder htag).mp h
  have hfiles := (Store.exists_makeFolders_iff.mp ⟨s₁, hmade⟩).2
  have hgains := Store.gains_makeFolders hmade
  rw [← way_body url] at hfiles hgains
  obtain ⟨hadmits, hreceives⟩ := Store.admits_of_write hfiles hgains hbody
  cases half with
  | body => exact hadmits
  | tag =>
      exact ((hreceives.write_beside_iff hadmits (way_tag_eq_body _)
        (fullPath_tag_ne_body _)).mp htag).1

/-- The second store is the first one with the files of a document and the
folders around them. -/
structure Keeps (folder : Location) (url : String)
    (document : String × List UInt8) (s s' : Store) : Prop where
  working : s'.working = s.working
  file : ∀ half : Half, s'.node? (s.fullPath (half.file folder url)) =
    some (.file (half.bytes document))
  other : ∀ q, (∀ half : Half, q ≠ s.fullPath (half.file folder url)) →
    s'.node? q = if q ∈ s.trail folder then some .folder else s.node? q

theorem exists_keep (hfolder : cache.folder = some folder)
    (hadmits : ∀ half : Half, s.store.Admits (half.file folder url))
    (htag : tag ≠ "") (body : List UInt8) :
    ∃ store, cache.keep url (some tag) body s = (.ok ⟨⟩, { s with store }) ∧
      Keeps folder url (tag, body) s.store store := by
  have husable : folder.IsUsable := by
    have husable := (hadmits .body).usable
    rw [Half.file_eq] at husable
    exact husable.of_append
  have hfiles := (hadmits .body).files
  rw [Half.way_file] at hfiles
  obtain ⟨s₁, hmade⟩ := Store.exists_makeFolders_iff.mpr ⟨husable, hfiles⟩
  have hgains := Store.gains_makeFolders hmade
  rw [← way_body url] at hfiles hgains
  obtain ⟨s₂, hbody⟩ := (hadmits .body).write hgains body
  obtain ⟨-, hreceives⟩ := Store.admits_of_write hfiles hgains hbody
  have htagged : s₂.write (Half.file folder url .tag)
      (Half.bytes (tag, body) .tag) = .ok _ :=
    (hreceives.write_beside_iff (hadmits .body) (way_tag_eq_body _)
      (fullPath_tag_ne_body _)).mpr ⟨hadmits .tag, rfl⟩
  refine ⟨_, (keep_eq_ok_iff hfolder htag).mpr ⟨s₁, s₂, _, hmade, hbody,
    htagged, rfl⟩, ?_⟩
  have hput := Store.ne_nil_of_node? (hadmits .tag).node
  refine ⟨hreceives.working, fun half => ?_, fun q hq => ?_⟩
  · rw [Store.node?_put hput]
    cases half with
    | tag => rw [if_pos rfl]
    | body =>
        rw [if_neg (fullPath_tag_ne_body _).symm, hreceives.node, if_pos rfl,
          Half.bytes]
  · rw [Store.node?_put hput, if_neg (hq .tag), hreceives.node,
      if_neg (hq .body), Half.way_file]

theorem CanKeep.admits (h : cache.CanKeep url s)
    (hfolder : cache.folder = some folder) (half : Half) :
    s.store.Admits (half.file folder url) := by
  have hkeep : cache.keep url (some "tag") [] s = (.ok ⟨⟩, _) :=
    Prod.ext (h (some "tag") []) rfl
  exact admits_of_keep hfolder (by decide) hkeep half

/-- If one document can be kept for a URL, then all can. -/
theorem canKeep_of_keep (hfolder : cache.folder = some folder) (htag : tag ≠ "")
    (h : cache.keep url (some tag) body s = (.ok ⟨⟩, s')) :
    cache.CanKeep url s := by
  intro tag' body'
  by_cases hempty : tag' = none ∨ tag' = some ""
  · rw [keep_of_untagged hempty]
  · rw [not_or] at hempty
    obtain ⟨tag', rfl⟩ := Option.ne_none_iff_exists'.mp hempty.1
    have htag' : tag' ≠ "" := fun he => hempty.2 (congrArg some he)
    obtain ⟨store, hkeep, -⟩ :=
      exists_keep hfolder (admits_of_keep hfolder htag h) htag' body'
    rw [hkeep]

/-- Keeping a document for one URL leaves the documents of the others. -/
theorem Holds.keeps {store store' : Store}
    (h : Holds folder room store held) {document : String × List UInt8}
    (hroom : room url) (hkeeps : Keeps folder url document store store') :
    Holds folder room store' fun u =>
      if u = url then some document else held u := by
  have hapart : ∀ u half, room u →
      store.fullPath (Half.file folder u half) ∉ store.trail folder := by
    intro u half hu
    have hapart := (h.admits u half hu).apart
    rwa [Half.way_file] at hapart
  have hthere : ∀ q ∈ store.trail folder, store'.node? q = some .folder := by
    intro q hq
    rw [hkeeps.other q fun half he => hapart url half hroom (he ▸ hq),
      if_pos hq]
  have hnode : ∀ u half, room u →
      store'.node? (store.fullPath (Half.file folder u half)) =
      (if u = url then some document else held u).map fun d =>
        .file (half.bytes d) := by
    intro u half hu
    by_cases hurl : u = url
    · rw [if_pos hurl, hurl, hkeeps.file]
      rfl
    · have hother : ∀ half', store.fullPath (Half.file folder u half) ≠
          store.fullPath (Half.file folder url half') :=
            fun half' he => hurl (Half.fullPath_file_inj he).1
      rw [if_neg hurl, hkeeps.other _ hother, if_neg (hapart u half hu),
        h.node u half hu]
  refine ⟨fun u half hu => ⟨(h.admits u half hu).usable, ?_, ?_, ?_⟩,
    fun u half hu => ?_, ?_⟩
  · rw [Half.way_file, Store.trail_eq hkeeps.working]
    exact fun q hq => Store.not_hasFile_of_folder (hthere q hq)
  · rw [Half.way_file, Store.trail_eq hkeeps.working,
      Store.fullPath_eq hkeeps.working]
    exact hapart u half hu
  · rw [Store.fullPath_eq hkeeps.working, hnode u half hu]
    intro hfolder
    obtain ⟨d, -, hd⟩ := Option.map_eq_some_iff.mp hfolder
    cases hd
  · rw [Store.fullPath_eq hkeeps.working, hnode u half hu]
  · intro u d hu hd
    rw [Store.trail_eq hkeeps.working]
    exact hthere

theorem Holds.read {document : String × List UInt8}
    (h : Holds folder room s.store held) (hroom : room url)
    (hheld : held url = some document) (half : Half) :
    s.store.read (half.file folder url) = .ok (half.bytes document) := by
  refine Store.read_eq_ok_iff.mpr ⟨(h.admits url half hroom).usable, ?_, ?_⟩
  · rw [Half.way_file]
    exact h.around url document hroom hheld
  · rw [h.node url half hroom, hheld]
    rfl

/-- The document that is found is the one that should be there. -/
theorem Holds.find? (h : Holds folder room s.store held)
    (hfolder : cache.folder = some folder) (hroom : room url)
    (hplain : ∀ tag body, held url = some (tag, body) → tag ≠ "" ∧
      IsPlainTag tag) :
    cache.find? url s = (.ok (held url), s) := by
  rw [Cache.find?, hfolder]
  dsimp only
  cases hheld : held url with
  | none =>
      have hadmits := h.admits url .tag hroom
      have hnode := h.node url .tag hroom
      rw [hheld] at hnode
      have hhas : Job.inspect (fun s => s.has (tagFile folder url)) s =
          (.ok false, s) :=
        Job.inspect_eq_ok_iff.mpr
          ⟨Store.has_eq_false hadmits.usable hadmits.files hnode, rfl⟩
      rw [Step.bind_of_ok hhas]
      rfl
  | some document =>
      obtain ⟨tag, body⟩ := document
      obtain ⟨hne, htag⟩ := hplain tag body hheld
      have hread := h.read hroom hheld
      have hhasTag :
          Job.inspect (fun s => s.has (tagFile folder url)) s = (.ok true, s) :=
        Job.inspect_eq_ok_iff.mpr ⟨Store.has_of_read (hread .tag), rfl⟩
      have hhasBody : Job.inspect (fun s => s.has (bodyFile folder url)) s =
          (.ok true, s) :=
        Job.inspect_eq_ok_iff.mpr ⟨Store.has_of_read (hread .body), rfl⟩
      have hreadTag : Job.inspect (fun s => s.read (tagFile folder url)) s =
          (.ok (Text.toBytes (tag ++ "\n")), s) :=
        Job.inspect_eq_ok_iff.mpr ⟨hread .tag, rfl⟩
      have hreadBody : Job.inspect (fun s => s.read (bodyFile folder url)) s =
          (.ok body, s) :=
        Job.inspect_eq_ok_iff.mpr ⟨hread .body, rfl⟩
      have hparsed :
          Job.compute (readTag (Text.toBytes (tag ++ "\n"))) s = (.ok tag, s) :=
        Job.compute_eq_ok_iff.mpr ⟨readTag_toBytes hne htag, rfl⟩
      rw [Step.bind_of_ok hhasTag, if_pos rfl, Step.bind_of_ok hhasBody,
        if_pos rfl, Step.bind_of_ok hreadTag, Step.bind_of_ok hparsed,
        Step.bind_of_ok hreadBody]
      rfl

end Cache

namespace Documents

variable {cache : Cache} {folder : Location} {room : String → Prop}
  {s : Session} {held : String → Option (String × List UInt8)} {x : Exchange}
  {rest : List Reply}

/-- The session after a URL was asked for. -/
def asked (s : Session) (url : String) (tag : Option String)
    (rest : List Reply) : Session :=
  { s with requests := s.requests ++ [{ url, headers := requestHeaders tag }],
           replies := rest }

theorem request_eq {url : String} {tag : Option String} {reply : Reply}
    (hreplies : s.replies = reply :: rest) :
    Job.request { url, headers := requestHeaders tag } s =
      (.ok reply, asked s url tag rest) := by
  rw [Job.request, Step.modify_bind, Step.get_bind]
  dsimp only
  rw [hreplies]
  rfl

theorem isSuccess_eq (r : Response) :
    isSuccess r.status = decide r.Succeeds := by
  rw [isSuccess]
  exact (Bool.decide_and ..).symm

/-- Without a success nothing happens but the request and the events. -/
theorem download_of_not_succeeds {cached : Option (String × List UInt8)}
    (hfind : cache.find? x.url s = (.ok cached, s))
    (hreplies : s.replies = x.reply :: rest)
    (hnot : ∀ r, x.reply = .response r → ¬ r.Succeeds) :
    ∃ events, download cache x.url s =
      (x.outcome cached, { asked s x.url (cached.map (·.1)) rest with
        events }) := by
  rw [download, Step.bind_of_ok hfind, Step.bind_of_ok (request_eq hreplies)]
  obtain ⟨url, reply⟩ := x
  cases reply with
  | trouble kind text => cases cached <;> exact ⟨_, rfl⟩
  | response r =>
      have hnot := hnot r rfl
      dsimp only [Exchange.outcome]
      rw [isSuccess_eq, decide_eq_false hnot, if_neg hnot]
      cases cached with
      | none => exact ⟨_, rfl⟩
      | some document =>
          dsimp only
          by_cases hunchanged : r.status = 304
          · rw [if_pos hunchanged, if_pos hunchanged]
            exact ⟨_, rfl⟩
          · rw [if_neg hunchanged, if_neg hunchanged]
            exact ⟨_, rfl⟩

theorem outcome_of_succeeds {r : Response} (hreply : x.reply = .response r)
    (hstatus : r.Succeeds) (cached : Option (String × List UInt8)) :
    x.outcome cached = .ok r.body := by
  rw [Exchange.outcome, hreply]
  exact if_pos hstatus

/-- A success is kept, and its body returned. -/
theorem download_of_succeeds {cached : Option (String × List UInt8)}
    {r : Response} {url : String} (hfind : cache.find? url s = (.ok cached, s))
    (hreplies : s.replies = .response r :: rest)
    (hstatus : r.Succeeds) {store : Store}
    (hkeep : cache.keep url r.tag r.body (asked s url (cached.map (·.1)) rest) =
      (.ok ⟨⟩, { asked s url (cached.map (·.1)) rest with store })) :
    ∃ events, download cache url s =
      (.ok r.body, { asked s url (cached.map (·.1)) rest with
        store, events }) := by
  rw [download, Step.bind_of_ok hfind, Step.bind_of_ok (request_eq hreplies)]
  dsimp only
  rw [isSuccess_eq, decide_eq_true hstatus]
  cases cached with
  | none =>
      refine ⟨s.events ++ [.updatedCache url], ?_⟩
      dsimp only
      rw [if_neg (by decide), Step.bind_of_ok hkeep]
      rfl
  | some document =>
      have hchanged : r.status ≠ 304 := by
        have := hstatus.2
        omega
      refine ⟨s.events ++ [.updatedCache url], ?_⟩
      dsimp only
      rw [if_neg hchanged, if_neg (by decide), Step.bind_of_ok hkeep]
      rfl

/-- One download in a session in which the cache holds what it should hold. -/
theorem download_eq (h : Cache.Holds folder room s.store held)
    (hfolder : cache.folder = some folder) (hroom : room x.url)
    (hplain : ∀ tag body, held x.url = some (tag, body) → tag ≠ "" ∧
      Cache.IsPlainTag tag) (hreplies : s.replies = x.reply :: rest) :
    ∃ store events, download cache x.url s = (x.outcome (held x.url),
        { asked s x.url ((held x.url).map (·.1)) rest with store, events }) ∧
      (x.reply.kept? = none → store = s.store) ∧
      Cache.Holds folder room store fun u =>
        if u = x.url then x.reply.kept?.or (held u) else held u := by
  have hfind := h.find? hfolder hroom hplain
  cases hkept : x.reply.kept? with
  | some document =>
      obtain ⟨tag, body⟩ := document
      obtain ⟨status, hreply, hstatus, htag⟩ := Reply.kept?_eq_some_iff.mp hkept
      rw [hreply] at hreplies
      obtain ⟨store, hkeep, hkeeps⟩ :=
        Cache.exists_keep (s := asked s x.url ((held x.url).map (·.1)) rest)
        hfolder (h.admits x.url · hroom) htag body
      obtain ⟨events, hdownload⟩ :=
        download_of_succeeds hfind hreplies hstatus hkeep
      refine ⟨store, events, ?_, nofun, ?_⟩
      · rw [hdownload, outcome_of_succeeds hreply hstatus]
      · exact h.keeps hroom hkeeps
  | none =>
      have hsame :
          (fun u => if u = x.url then none.or (held u) else held u) = held := by
        funext u
        simp
      rw [hsame]
      -- A success without a tag is told like any success, but it is not kept.
      by_cases hsuccess : ∃ r, x.reply = .response r ∧ r.Succeeds
      · obtain ⟨r, hreply, hstatus⟩ := hsuccess
        rw [hreply] at hreplies hkept
        obtain ⟨events, hdownload⟩ :=
          download_of_succeeds hfind hreplies hstatus
          (Cache.keep_of_untagged (Reply.untagged_of_kept? hkept hstatus))
        exact ⟨s.store,
          events, hdownload.trans (by rw [outcome_of_succeeds hreply hstatus]),
          fun _ => rfl, h⟩
      · have hnot : ∀ r, x.reply = .response r → ¬ r.Succeeds :=
          fun r hreply hstatus =>
          hsuccess ⟨r, hreply, hstatus⟩
        obtain ⟨events, hdownload⟩ :=
          download_of_not_succeeds hfind hreplies hnot
        exact ⟨s.store, events, hdownload, fun _ => rfl, h⟩

/-- The session after downloads of URLs one after another, each with
whatever outcome. -/
def downloadAll (cache : Cache) (urls : List String) (s : Session) : Session :=
  urls.foldl (fun s url => (download cache url s).2) s

theorem downloadAll_concat (urls : List String) (url : String) :
    downloadAll cache (urls ++ [url]) s =
      (download cache url (downloadAll cache urls s)).2 := by
  rw [downloadAll, List.foldl_append]
  rfl

theorem plain_of_lastKept {history : List Exchange} {url : String}
    (hplain : ∀ x ∈ history, ∀ tag body, x.reply.kept? = some (tag, body) →
      Cache.IsPlainTag tag)
    (tag : String) (body : List UInt8)
    (h : Exchange.lastKept history url = some (tag, body)) :
    tag ≠ "" ∧ Cache.IsPlainTag tag := by
  obtain ⟨x, hx, hkept⟩ := Exchange.exists_of_lastKept h
  obtain ⟨_, _, _, hne⟩ := Reply.kept?_eq_some_iff.mp hkept
  exact ⟨hne, hplain x hx tag body hkept⟩

/-- After any history the cache holds what was kept last, and the replies
to it are used up. -/
theorem holds_downloadAll (hfolder : cache.folder = some folder)
    (h : Cache.Holds folder room s.store fun _ => none)
    {history : List Exchange} (hroom : ∀ x ∈ history, room x.url)
    (hplain : ∀ x ∈ history, ∀ tag body,
      x.reply.kept? = some (tag, body) → Cache.IsPlainTag tag)
    (hreplies : s.replies = history.map (·.reply) ++ rest) :
    Cache.Holds folder room (downloadAll cache (history.map (·.url)) s).store
      (Exchange.lastKept history) ∧
      (downloadAll cache (history.map (·.url)) s).replies = rest := by
  induction history using List.reverseRecOn generalizing rest with
  | nil => exact ⟨h, hreplies⟩
  | append_singleton history x ih =>
      have hmem : ∀ y ∈ history, y ∈ history ++ [x] :=
        fun y hy => List.mem_append_left _ hy
      have hx : x ∈ history ++ [x] :=
        List.mem_append_right _ (List.mem_singleton.mpr rfl)
      rw [List.map_append, List.append_assoc] at hreplies
      obtain ⟨hbefore, hnext⟩ := ih (fun y hy => hroom y (hmem y hy))
        (fun y hy => hplain y (hmem y hy)) hreplies
      obtain ⟨store, events, hdownload, -, hafter⟩ :=
        download_eq hbefore hfolder (hroom x hx)
        (plain_of_lastKept fun y hy => hplain y (hmem y hy)) hnext
      have hkept : Exchange.lastKept (history ++ [x]) = fun u =>
          if u = x.url then x.reply.kept?.or (Exchange.lastKept history u)
          else Exchange.lastKept history u := by
        funext u
        rw [Exchange.lastKept_concat]
        simp only [eq_comm]
      rw [List.map_append, List.map_singleton, downloadAll_concat,
        hdownload, hkept]
      exact ⟨hafter, rfl⟩

/-- An empty folder has nothing that was kept. -/
theorem holds_of_empty (hfolder : cache.folder = some folder)
    (hempty : ∀ name,
      s.store.node? (s.store.fullPath folder ++ [name]) = none) :
    Cache.Holds folder (fun url => cache.CanKeep url s) s.store fun _ =>
      none where
  admits url half hroom := hroom.admits hfolder half
  node url half hroom := by
    rw [Cache.Half.fullPath_file]
    exact hempty _
  around url document hroom hheld := nomatch hheld

theorem lookup_requestHeaders (tag : Option String) :
    (requestHeaders tag).lookup "If-None-Match" = tag := by
  cases tag <;> rfl

end Documents

/-- Whatever was downloaded before, and with whatever replies, the cache holds
for every URL the tag and the body of the last success with a tag. The next
request carries that tag, its outcome follows from its reply and what is held,
only a success changes the files, and what is held for other URLs stays. -/
theorem cache_coherent {cache : Cache}
    {folder : Location} {s : Session} {done : List Exchange} {next : Exchange}
    {later : List Reply} (hfolder : cache.folder = some folder)
    (hempty : ∀ name, s.store.node? (s.store.fullPath folder ++ [name]) = none)
    (hroom : ∀ x ∈ done ++ [next], cache.CanKeep x.url s)
    (hplain : ∀ x ∈ done ++ [next], ∀ tag body,
      x.reply.kept? = some (tag, body) → Cache.IsPlainTag tag)
    (hreplies : s.replies = (done ++ [next]).map (·.reply) ++ later) :
    let t := Documents.downloadAll cache (done.map (·.url)) s
    let t' := (Documents.download cache next.url t).2
    (∀ url, cache.CanKeep url s →
      cache.find? url t = (.ok (Exchange.lastKept done url), t) ∧
      cache.find? url t' = (.ok (Exchange.lastKept (done ++ [next]) url), t') ∧
      (url ≠ next.url → (cache.find? url t').1 = (cache.find? url t).1)) ∧
    (∀ url url' (half half' : Cache.Half),
      t.store.fullPath (half.file folder url) =
        t.store.fullPath (half'.file folder url') →
        url = url' ∧ half = half') ∧
    (∃ headers, t'.requests = t.requests ++ [{ url := next.url, headers }] ∧
      headers.lookup "If-None-Match" =
        (Exchange.lastKept done next.url).map (·.1)) ∧
    (Documents.download cache next.url t).1 =
      next.outcome (Exchange.lastKept done next.url) ∧
    ((∀ r, next.reply = .response r → ¬ r.Succeeds) → t'.store = t.store) := by
  intro t t'
  have hmem : ∀ x ∈ done, x ∈ done ++ [next] :=
    fun x hx => List.mem_append_left _ hx
  have hnext : next ∈ done ++ [next] :=
    List.mem_append_right _ (List.mem_singleton.mpr rfl)
  have hstart := Documents.holds_of_empty hfolder hempty
  have ht' :
      t' = Documents.downloadAll cache ((done ++ [next]).map (·.url)) s := by
    rw [List.map_append, List.map_singleton, Documents.downloadAll_concat]
  have hafter :=
    (Documents.holds_downloadAll hfolder hstart hroom hplain hreplies).1
  have hplainBefore : ∀ x ∈ done, ∀ tag body, x.reply.kept? = some (tag, body) →
      Cache.IsPlainTag tag :=
    fun x hx => hplain x (hmem x hx)
  rw [← ht'] at hafter
  rw [List.map_append, List.append_assoc] at hreplies
  obtain ⟨hbefore, hreply⟩ :=
    Documents.holds_downloadAll hfolder hstart (fun x hx => hroom x (hmem x hx))
    hplainBefore hreplies
  have hfind : ∀ url, cache.CanKeep url s →
      cache.find? url t = (.ok (Exchange.lastKept done url), t) :=
    fun url hurl =>
      hbefore.find? hfolder hurl (Documents.plain_of_lastKept hplainBefore)
  have hfind' : ∀ url, cache.CanKeep url s →
      cache.find? url t' = (.ok (Exchange.lastKept (done ++ [next]) url), t') :=
    fun url hurl =>
      hafter.find? hfolder hurl (Documents.plain_of_lastKept hplain)
  obtain ⟨store, events, hdownload, hstore, -⟩ :=
    Documents.download_eq hbefore hfolder (hroom next hnext)
    (Documents.plain_of_lastKept hplainBefore) hreply
  have hstate : t' = { Documents.asked t next.url
    ((Exchange.lastKept done next.url).map (·.1)) later with
      store, events } := congrArg Prod.snd hdownload
  refine ⟨fun url hurl => ⟨hfind url hurl, hfind' url hurl, fun hne => ?_⟩,
    fun url url' half half' => Cache.Half.fullPath_file_inj, ⟨_, ?_,
      Documents.lookup_requestHeaders _⟩,
    congrArg Prod.fst hdownload, fun hnot => ?_⟩
  · rw [hfind url hurl, hfind' url hurl, Exchange.lastKept_concat,
      if_neg (Ne.symm hne)]
  · rw [hstate]
    rfl
  · rw [hstate]
    exact hstore (Reply.kept?_eq_none hnot)

/-- Two documents with tags, and one of them again without a tag. -/
def servedTwice : List Exchange :=
  [⟨"a", .response { tag := some "one", body := [1] }⟩,
    ⟨"b", .response { tag := some "two", body := [2] }⟩,
    ⟨"a", .response { body := [3] }⟩]

def servedLate : Exchange :=
  ⟨"a", .trouble .timeout "late"⟩

theorem cache_coherent_fallback :
    let s : Session :=
      { replies := (servedTwice ++ [servedLate]).map (·.reply) }
    let t := Documents.downloadAll .standard (servedTwice.map (·.url)) s
    Cache.standard.find? "a" t = (.ok (some ("one", [1])), t) ∧
      (Documents.download .standard "a" t).1 = .ok [1] := by
  intro s t
  have hfolder : Cache.standard.folder = some ⟨"", ["cache", "http"]⟩ := by
    decide +kernel
  have hempty : ∀ name, s.store.node? (s.store.fullPath ⟨"",
      ["cache", "http"]⟩ ++ [name]) = none :=
    fun name => rfl
  have hroom : ∀ url ∈ ["a", "b"], Cache.standard.CanKeep url s := by
    intro url hurl
    have hkeep : (Cache.standard.keep url (some "tag") [] s).1.isOk = true := by
      revert url
      decide +kernel
    obtain ⟨s', hkeep⟩ := Step.exists_of_isOk hkeep
    exact Cache.canKeep_of_keep hfolder (by decide) hkeep
  have hurls : ∀ x ∈ servedTwice ++ [servedLate], x.url ∈ ["a",
      "b"] := by decide
  have hplain : ∀ x ∈ servedTwice ++ [servedLate], ∀ d ∈ x.reply.kept?,
      Text.strip d.1 = d.1 ∧ '\r' ∉ d.1.toList := by decide +kernel
  obtain ⟨hfind, -, -, houtcome, -⟩ :=
    cache_coherent hfolder hempty (fun x hx => hroom x.url (hurls x hx))
    (fun x hx tag body hkept => ⟨(hplain x hx _ hkept).1,
      (hplain x hx _ hkept).2⟩) (List.append_nil _).symm
  exact ⟨(hfind "a" (hroom "a" (by decide))).1, houtcome⟩

end Typings
