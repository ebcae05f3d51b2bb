import BATorrent.Lib.Run
import Mathlib.Data.List.Dedup
import Mathlib.Logic.Function.Basic
import BATorrent.Lib.Text
import Mathlib.Data.List.Perm.Basic

namespace BATorrent.RssManager

open Lib

abbrev Text := List Char

-- What Qt brings: the expression of a filter, none where it is not valid, and the order in which a set
-- lists its links at each save, which is its own.
structure Qt where
  trimmed : Text → Text
  regex : Text → Option (Text → Bool)
  values : Nat → List Text → List Text
  perm : ∀ n links, (values n links).Perm links

structure RssFeed where
  url : Text
  name : Text
  savePath : Text
  filterPattern : Text
  autoDownload : Bool

structure RssItem where
  title : Text
  link : Text
  downloaded : Bool

-- A .torrent that is being fetched from its link.
structure Fetch where
  link : Text
  savePath : Text

structure Settings where
  rssFeeds : List RssFeed
  rssDownloadedLinks : List Text

-- The downloaded links are a set, listed here as they came in. `saves` counts the saves.
structure State where
  feeds : List RssFeed
  items : Nat → List RssItem
  downloadedLinks : List Text
  fetching : List Fetch
  defaultSavePath : Text
  settings : Settings
  saves : Nat

def init (defaultSavePath : Text) : State where
  feeds := []
  items _ := []
  downloadedLinks := []
  fetching := []
  defaultSavePath := defaultSavePath
  settings := ⟨[], []⟩
  saves := 0

-- What comes back for a feed: its title and the title and link of each item, or none where it does not
-- parse.
inductive Reply where
  | error
  | data (parsed : Option (Text × List (Text × Text)))

-- What comes back for the link of a .torrent, and whether the temporary file can be opened.
structure Body where
  error : Bool
  data : List UInt8
  writable : Bool

def Body.isTorrent (b : Body) : Bool := !b.error && b.data.head? = some 100 && b.writable

inductive Event where
  | addFeed (url : Text)
  | removeFeed (index : Nat)
  | updateFeed (index : Nat) (feed : RssFeed)
  | checked (feedUrl : Text) (reply : Reply)
  | fetched (index : Nat) (body : Body)
  | loadFeeds
  | restarted

inductive Out where
  | feedError (feed : Text)
  | feedUpdated (index : Nat)
  | itemAutoDownloaded (feed title : Text)
  | handed (link savePath : Text)
deriving DecidableEq

namespace State

variable (qt : Qt)

def keptLinks (downloaded : List Text) : List Text :=
  if 5000 < downloaded.length then downloaded.drop (downloaded.length - 5000) else downloaded

def saveFeeds (s : State) : State :=
  { s with
    settings := ⟨s.feeds, keptLinks (qt.values s.saves s.downloadedLinks)⟩
    saves := s.saves + 1 }

def loadFeeds (s : State) : State :=
  { s with feeds := s.settings.rssFeeds, downloadedLinks := s.settings.rssDownloadedLinks.dedup }

def magnetPrefix : Text := "magnet:".toList

def httpPrefix : Text := "http".toList

-- A link that is fetched before anything is handed to the engine.
def isFetched (link : Text) : Bool := !magnetPrefix.isPrefixOf link && httpPrefix.isPrefixOf link

def addFromLink (s : State) (link savePath : Text) : State × List Out :=
  if link = [] then (s, [])
  else if isFetched link then ({ s with fetching := s.fetching ++ [⟨link, savePath⟩] }, [])
  else (s, [.handed link savePath])

-- The filter of a feed, none where it cannot be used.
def filterOf (feed : RssFeed) : Option (Text → Bool) :=
  if feed.filterPattern = [] then some fun _ => true else qt.regex feed.filterPattern

def autoDownload (feed : RssFeed) (savePath : Text) (filter : Text → Bool) :
    State → List RssItem → State × List RssItem × List Out
  | s, [] => (s, [], [])
  | s, item :: rest =>
      if item.downloaded || !filter item.title then
        let (s, items, outs) := autoDownload feed savePath filter s rest
        (s, item :: items, outs)
      else
        let (s, handed) := s.addFromLink item.link savePath
        let s := { s with downloadedLinks := s.downloadedLinks.insert item.link }
        let (s, items, outs) := autoDownload feed savePath filter s rest
        (s, { item with downloaded := true } :: items,
          handed ++ .itemAutoDownloaded feed.name item.title :: outs)

def setItems (s : State) (index : Nat) (items : List RssItem) : State :=
  { s with items := Function.update s.items index items }

def autoDownloadMatching (s : State) (index : Nat) (feed : RssFeed) : State × List Out :=
  match filterOf qt feed with
  | none => (s, [])
  | some filter =>
      let savePath := if feed.savePath = [] then s.defaultSavePath else feed.savePath
      let (s', items, outs) := autoDownload feed savePath filter s (s.items index)
      ((s'.setItems index items).saveFeeds qt, outs)

-- The items that have a link, marked where it was downloaded before.
def itemsOf (s : State) (items : List (Text × Text)) : List RssItem :=
  (items.filter fun item => item.2 ≠ []).map fun (title, link) =>
    ⟨title, link, decide (link ∈ s.downloadedLinks)⟩

def parseFeedXml (s : State) (index : Nat) (feed : RssFeed) :
    Option (Text × List (Text × Text)) → State × List Out
  | none => (s, [.feedError feed.name])
  | some (title, items) =>
      let feed := if title = [] then feed else { feed with name := title }
      let s := { s with feeds := s.feeds.set index feed }
      let s := s.setItems index (s.itemsOf items)
      let (s, outs) := if feed.autoDownload then s.autoDownloadMatching qt index feed else (s, [])
      (s, .feedUpdated index :: outs)

-- The reply of a check, for the feed that has the address then.
def checkFinished (s : State) (feedUrl : Text) (reply : Reply) : State × List Out :=
  match s.feeds.findIdx? fun f => f.url = feedUrl with
  | none => (s, [])
  | some index =>
      match s.feeds[index]?, reply with
      | none, _ => (s, [])
      | some feed, .error => (s, [.feedError feed.name])
      | some feed, .data parsed =>
          let (s, outs) := s.parseFeedXml qt index feed parsed
          (s.saveFeeds qt, outs)

def addFeed (s : State) (url : Text) : State × List Out :=
  let trimmed := qt.trimmed url
  if trimmed = [] then (s, [])
  else if s.feeds.any fun f => f.url = trimmed then (s, [.feedError trimmed])
  else
    let feed : RssFeed := ⟨trimmed, trimmed, [], [], false⟩
    (({ s with feeds := s.feeds ++ [feed] } : State).saveFeeds qt, [])

def removeFeed (s : State) (index : Nat) : State :=
  let items k := if k < index then s.items k else s.items (k + 1)
  ({ s with feeds := s.feeds.eraseIdx index, items := items } : State).saveFeeds qt

-- A restart forgets the items and the fetches.
def next (s : State) : Event → Option (State × List Out)
  | .addFeed url => some (s.addFeed qt url)
  | .removeFeed index => if index < s.feeds.length then some (s.removeFeed qt index, []) else none
  | .updateFeed index feed =>
      if index < s.feeds.length then
        some (({ s with feeds := s.feeds.set index feed } : State).saveFeeds qt, [])
      else none
  | .checked feedUrl reply => some (s.checkFinished qt feedUrl reply)
  | .fetched index body =>
      s.fetching[index]?.map fun fetch =>
        ({ s with fetching := s.fetching.eraseIdx index },
          if body.isTorrent then [.handed fetch.link fetch.savePath] else [])
  | .loadFeeds => some (s.loadFeeds, [])
  | .restarted => some ({ s.loadFeeds with items := fun _ => [], fetching := [] }, [])

end State

def machine (qt : Qt) (defaultSavePath : Text) : Machine State Event Out where
  init := init defaultSavePath
  next := State.next qt

end BATorrent.RssManager

namespace BATorrent.RssManager

open Lib State

variable {qt : Qt} {defaultSavePath : Text} {past : List (Reaction State Event Out)} {s s' : State}
  {a : Event} {out outs : List Out}

def handedLinks (outs : List Out) : List Text :=
  outs.filterMap fun o => match o with
    | .handed link _ => some link
    | _ => none

@[simp] theorem handedLinks_append (outs outs' : List Out) :
    handedLinks (outs ++ outs') = handedLinks outs ++ handedLinks outs' := List.filterMap_append

@[simp] theorem handedLinks_told (feed title : Text) (outs : List Out) :
    handedLinks (.itemAutoDownloaded feed title :: outs) = handedLinks outs := rfl

-- The links of the items that a filter takes.
def matching (filter : Text → Bool) (items : List RssItem) : List Text :=
  (items.filter fun item => !item.downloaded && filter item.title).map RssItem.link

theorem matching_cons (filter : Text → Bool) (item : RssItem) (rest : List RssItem) :
    matching filter (item :: rest) = if item.downloaded || !filter item.title then matching filter rest
      else item.link :: matching filter rest := by
  unfold matching
  rw [List.filter_cons]
  cases item.downloaded with
  | true => rfl
  | false =>
      cases filter item.title with
      | true => rfl
      | false => rfl

-- The filter by which a reply for the address is downloaded from.
def autoFilter (qt : Qt) (s : State) (feedUrl : Text) : Option (Text → Bool) :=
  (s.feeds.find? fun f => f.url = feedUrl).bind fun feed =>
    if feed.autoDownload then filterOf qt feed else none

-- What a reply brings to download has no link twice, a .torrent that is fetched comes, and what is
-- loaded was neither cut short when it was saved nor recorded for a fetch that is given up.
def Careful (qt : Qt) (s : State) : Event → Prop
  | .checked feedUrl (.data (some (_, items))) =>
      ∀ filter ∈ autoFilter qt s feedUrl, (matching filter (s.itemsOf items)).Nodup
  | .fetched _ body => body.isTorrent = true
  | .loadFeeds => s.downloadedLinks.length ≤ 5000
  | .restarted => s.downloadedLinks.length ≤ 5000 ∧ s.fetching = []
  | _ => True

-- Each link that is recorded was handed over once, or is being fetched.
structure Accounted (outs : List Out) (s : State) : Prop where
  links : (handedLinks outs ++ s.fetching.map Fetch.link).Perm s.downloadedLinks
  nodup : s.downloadedLinks.Nodup

-- What is saved is what is recorded, in the order it was saved in.
def Saved (s : State) : Prop :=
  ∃ links, links.Perm s.downloadedLinks ∧ s.settings.rssDownloadedLinks = keptLinks links

theorem saveFeeds_saved : Saved (s.saveFeeds qt) :=
  ⟨qt.values s.saves s.downloadedLinks, qt.perm _ _, rfl⟩

theorem Accounted.saveFeeds (h : Accounted outs s) : Accounted outs (s.saveFeeds qt) := ⟨h.links, h.nodup⟩

-- Loading gives back the links that were recorded, as no more than 5000 of them were.
theorem loadFeeds_downloadedLinks (hnodup : s.downloadedLinks.Nodup) (hsaved : Saved s)
    (hfew : s.downloadedLinks.length ≤ 5000) :
    s.loadFeeds.downloadedLinks.Perm s.downloadedLinks ∧ Saved s.loadFeeds := by
  obtain ⟨links, hperm, hsettings⟩ := hsaved
  have hkept : keptLinks links = links := by
    rw [keptLinks, if_neg]
    rw [hperm.length_eq]
    omega
  have hloaded : s.loadFeeds.downloadedLinks = links := by
    unfold State.loadFeeds
    rw [hsettings, hkept]
    exact (hperm.nodup_iff.mpr hnodup).dedup
  rw [hloaded]
  exact ⟨hperm, links, hloaded ▸ .refl _, hsettings⟩

-- A link that is recorded as it is taken.
theorem Accounted.take (h : Accounted outs s) {link : Text} (hne : link ≠ [])
    (hnew : link ∉ s.downloadedLinks) (savePath : Text) :
    let (s', handed) := s.addFromLink link savePath
    Accounted (handed ++ outs) { s' with downloadedLinks := s'.downloadedLinks.insert link } ∧
      s'.downloadedLinks = s.downloadedLinks := by
  unfold State.addFromLink
  rw [if_neg hne]
  split_ifs with hfetched
  · refine ⟨⟨?_, h.nodup.insert⟩, rfl⟩
    dsimp only
    rw [List.insert_of_not_mem hnew, List.nil_append, List.map_append, ← List.append_assoc]
    exact (List.perm_append_singleton _ _).trans (h.links.cons link)
  · refine ⟨⟨?_, h.nodup.insert⟩, rfl⟩
    dsimp only
    rw [List.insert_of_not_mem hnew]
    exact h.links.cons link

theorem autoDownload_accounted (feed : RssFeed) (savePath : Text) {filter : Text → Bool}
    (items : List RssItem) (hne : ∀ item ∈ items, item.link ≠ []) (h : Accounted outs s)
    (hnodup : (matching filter items).Nodup)
    (hnew : ∀ link ∈ matching filter items, link ∉ s.downloadedLinks) :
    Accounted ((autoDownload feed savePath filter s items).2.2 ++ outs)
      (autoDownload feed savePath filter s items).1 := by
  induction items generalizing s outs with
  | nil => exact h
  | cons item rest ih =>
      obtain ⟨hitem, hrest⟩ := List.forall_mem_cons.mp hne
      rw [autoDownload]
      rw [matching_cons] at hnodup hnew
      split_ifs at hnodup hnew ⊢ with hskip
      · exact ih hrest h hnodup hnew
      · obtain ⟨hfirst, hnodup⟩ := List.nodup_cons.mp hnodup
        obtain ⟨hlink, hnew⟩ := List.forall_mem_cons.mp hnew
        have htake := h.take hitem hlink savePath
        generalize s.addFromLink item.link savePath = taken at htake ⊢
        obtain ⟨s', handed⟩ := taken
        obtain ⟨htaken, hsame⟩ := htake
        -- The links of the rest are other ones than the one that was taken.
        have hlater : ∀ link ∈ matching filter rest, link ∉ s'.downloadedLinks.insert item.link := by
          intro link hin hmem
          rw [hsame] at hmem
          rcases List.mem_insert_iff.mp hmem with rfl | hmem
          · exact hfirst hin
          · exact hnew link hin hmem
        have hdone := ih hrest htaken hnodup hlater
        refine ⟨?_, hdone.nodup⟩
        refine List.Perm.trans (List.Perm.append_right _ ?_) hdone.links
        simp only [handedLinks_append, handedLinks_told]
        rw [← List.append_assoc]
        exact List.perm_append_comm.append_right _

theorem itemsOf_link_ne {items : List (Text × Text)} : ∀ item ∈ s.itemsOf items, item.link ≠ [] := by
  intro item hitem
  obtain ⟨⟨title, link⟩, hin, rfl⟩ := List.mem_map.mp hitem
  exact of_decide_eq_true (List.mem_filter.mp hin).2

theorem matching_itemsOf {filter : Text → Bool} {items : List (Text × Text)} :
    ∀ link ∈ matching filter (s.itemsOf items), link ∉ s.downloadedLinks := by
  intro link hlink
  obtain ⟨item, hitem, rfl⟩ := List.mem_map.mp hlink
  obtain ⟨hitem, htaken⟩ := List.mem_filter.mp hitem
  obtain ⟨⟨title, link⟩, -, rfl⟩ := List.mem_map.mp hitem
  simp only [Bool.and_eq_true, Bool.not_eq_true', decide_eq_false_iff_not] at htaken
  exact htaken.1

structure Books (outs : List Out) (s : State) : Prop where
  accounted : Accounted outs s
  saved : Saved s

theorem autoDownloadMatching_books (index : Nat) (feed : RssFeed) (h : Books outs s)
    (hne : ∀ item ∈ s.items index, item.link ≠ [])
    (hnew : ∀ filter ∈ filterOf qt feed, (matching filter (s.items index)).Nodup ∧
      ∀ link ∈ matching filter (s.items index), link ∉ s.downloadedLinks) :
    Books ((s.autoDownloadMatching qt index feed).2 ++ outs) (s.autoDownloadMatching qt index feed).1 := by
  unfold State.autoDownloadMatching
  cases hfilter : filterOf qt feed with
  | none => exact h
  | some filter =>
      obtain ⟨hnodup, hnew⟩ := hnew filter hfilter
      have hdone := autoDownload_accounted feed
        (if feed.savePath = [] then s.defaultSavePath else feed.savePath) (s.items index) hne h.accounted
        hnodup hnew
      exact ⟨⟨hdone.links, hdone.nodup⟩, saveFeeds_saved⟩

theorem parseFeedXml_books (index : Nat) (feed : RssFeed) (parsed : Option (Text × List (Text × Text)))
    (h : Books outs s)
    (hcareful : ∀ title items, parsed = some (title, items) → feed.autoDownload = true →
      ∀ filter ∈ filterOf qt feed, (matching filter (s.itemsOf items)).Nodup) :
    Books ((s.parseFeedXml qt index feed parsed).2 ++ outs) (s.parseFeedXml qt index feed parsed).1 := by
  cases parsed with
  | none => exact ⟨⟨h.accounted.links, h.accounted.nodup⟩, h.saved⟩
  | some data =>
      obtain ⟨title, items⟩ := data
      have hnodup := hcareful title items rfl
      unfold State.parseFeedXml
      dsimp only
      -- The title is the feed's name from here on, which its filter does not read.
      generalize hnamed : (if title = [] then feed else { feed with name := title }) = named
      obtain ⟨hauto, hfilter⟩ : named.autoDownload = feed.autoDownload ∧
          filterOf qt named = filterOf qt feed := by
        rw [← hnamed]
        split_ifs
        · exact ⟨rfl, rfl⟩
        · exact ⟨rfl, rfl⟩
      generalize hparsed : ({ s with feeds := s.feeds.set index named } : State).setItems index
        (({ s with feeds := s.feeds.set index named } : State).itemsOf items) = s'
      have hbooks : Books outs s' := by
        subst hparsed
        exact ⟨⟨h.accounted.links, h.accounted.nodup⟩, h.saved⟩
      have hitems : s'.items index = s'.itemsOf items := by
        subst hparsed
        exact Function.update_self ..
      have hsame : s'.itemsOf items = s.itemsOf items := by
        subst hparsed
        rfl
      split_ifs with hon
      · have htaken : ∀ filter ∈ filterOf qt named, (matching filter (s'.items index)).Nodup ∧
            ∀ link ∈ matching filter (s'.items index), link ∉ s'.downloadedLinks := by
          intro filter hin
          rw [hitems]
          refine ⟨?_, matching_itemsOf⟩
          rw [hsame]
          exact hnodup (hauto ▸ hon) filter (hfilter ▸ hin)
        have hdone := autoDownloadMatching_books index named hbooks (hitems ▸ itemsOf_link_ne) htaken
        exact ⟨⟨hdone.accounted.links, hdone.accounted.nodup⟩, hdone.saved⟩
      · exact ⟨⟨hbooks.accounted.links, hbooks.accounted.nodup⟩, hbooks.saved⟩

theorem checkFinished_books {feedUrl : Text} {reply : Reply} (h : Books outs s)
    (hcareful : Careful qt s (.checked feedUrl reply)) :
    Books ((s.checkFinished qt feedUrl reply).2 ++ outs) (s.checkFinished qt feedUrl reply).1 := by
  unfold State.checkFinished
  cases hindex : s.feeds.findIdx? fun f => f.url = feedUrl with
  | none => exact h
  | some index =>
      dsimp only
      cases hfeed : s.feeds[index]? with
      | none => exact h
      | some feed =>
          cases reply with
          | error => exact ⟨⟨h.accounted.links, h.accounted.nodup⟩, h.saved⟩
          | data parsed =>
              have htaken : ∀ title items, parsed = some (title, items) → feed.autoDownload = true →
                  ∀ filter ∈ filterOf qt feed, (matching filter (s.itemsOf items)).Nodup := by
                rintro title items rfl hauto filter hfilter
                refine hcareful filter ?_
                unfold autoFilter
                rw [List.find?_eq_bind_findIdx?_getElem?, hindex, Option.bind_some, hfeed,
                  Option.bind_some, if_pos hauto]
                exact hfilter
              have hparsed := parseFeedXml_books index feed parsed h htaken
              exact ⟨hparsed.accounted.saveFeeds, saveFeeds_saved⟩

theorem next_books (h : Books outs s) (hcareful : Careful qt s a) (hnext : s.next qt a = some (s', out)) :
    Books (out ++ outs) s' := by
  cases a with
  | addFeed url =>
      have hadded : s.addFeed qt url = (s', out) := Option.some.inj hnext
      unfold State.addFeed at hadded
      dsimp only at hadded
      split_ifs at hadded
      · obtain ⟨rfl, rfl⟩ := Prod.mk.inj hadded
        exact h
      · obtain ⟨rfl, rfl⟩ := Prod.mk.inj hadded
        exact ⟨⟨h.accounted.links, h.accounted.nodup⟩, h.saved⟩
      · obtain ⟨rfl, rfl⟩ := Prod.mk.inj hadded
        exact ⟨⟨h.accounted.links, h.accounted.nodup⟩, saveFeeds_saved⟩
  | removeFeed index =>
      rw [State.next] at hnext
      split_ifs at hnext
      obtain ⟨rfl, rfl⟩ := Prod.mk.inj (Option.some.inj hnext)
      exact ⟨⟨h.accounted.links, h.accounted.nodup⟩, saveFeeds_saved⟩
  | updateFeed index feed =>
      rw [State.next] at hnext
      split_ifs at hnext
      obtain ⟨rfl, rfl⟩ := Prod.mk.inj (Option.some.inj hnext)
      exact ⟨⟨h.accounted.links, h.accounted.nodup⟩, saveFeeds_saved⟩
  | checked feedUrl reply =>
      have hchecked := Option.some.inj hnext
      have hbooks := checkFinished_books h hcareful
      rw [hchecked] at hbooks
      exact hbooks
  | fetched index body =>
      have hbody : body.isTorrent = true := hcareful
      obtain ⟨fetch, hfetch, heq⟩ := Option.map_eq_some_iff.mp hnext
      obtain ⟨rfl, rfl⟩ := Prod.mk.inj heq
      obtain ⟨hindex, rfl⟩ := List.getElem?_eq_some_iff.mp hfetch
      refine ⟨⟨?_, h.accounted.nodup⟩, h.saved⟩
      rw [if_pos hbody]
      refine List.Perm.trans ?_ h.accounted.links
      have hmoved := ((List.getElem_cons_eraseIdx_perm hindex).map Fetch.link).append_left
        (handedLinks outs)
      exact List.perm_middle.symm.trans hmoved
  | loadFeeds =>
      obtain ⟨rfl, rfl⟩ := Prod.mk.inj (Option.some.inj hnext)
      obtain ⟨hperm, hsaved⟩ := loadFeeds_downloadedLinks h.accounted.nodup h.saved hcareful
      exact ⟨⟨h.accounted.links.trans hperm.symm, hperm.nodup_iff.mpr h.accounted.nodup⟩, hsaved⟩
  | restarted =>
      obtain ⟨rfl, rfl⟩ := Prod.mk.inj (Option.some.inj hnext)
      obtain ⟨hfew, hidle⟩ := hcareful
      obtain ⟨hperm, hsaved⟩ := loadFeeds_downloadedLinks h.accounted.nodup h.saved hfew
      have hlinks := h.accounted.links
      rw [hidle] at hlinks
      exact ⟨⟨hlinks.trans hperm.symm, hperm.nodup_iff.mpr h.accounted.nodup⟩, hsaved⟩

theorem run_books (hrun : (machine qt defaultSavePath).Run (Careful qt) past s) :
    Books (Machine.log past) s := by
  have hinit : Books [] (machine qt defaultSavePath).init :=
    ⟨⟨.nil, .nil⟩, [], .nil, rfl⟩
  exact Machine.Run.invariant_past (fun past s => Books (Machine.log past) s) hinit
    (fun _ _ _ _ _ h hcareful hnext => next_books h hcareful hnext) hrun

theorem run_once (hrun : (machine qt defaultSavePath).Run (Careful qt) past s) :
    (∀ link, (handedLinks (Machine.log past)).count link ≤ 1) ∧
      ((∀ link ∈ s.downloadedLinks, link ∈ handedLinks (Machine.log past)) ↔ s.fetching = []) := by
  obtain ⟨⟨hlinks, hnodup⟩, -⟩ := run_books hrun
  have hall := hlinks.nodup_iff.mpr hnodup
  obtain ⟨hhanded, -, hapart⟩ := List.nodup_append.mp hall
  refine ⟨List.nodup_iff_count_le_one.mp hhanded, fun hrecorded => ?_, fun hidle link hlink => ?_⟩
  · by_contra hne
    obtain ⟨fetch, hfetch⟩ := List.exists_mem_of_ne_nil _ hne
    have hin := List.mem_map_of_mem (f := Fetch.link) hfetch
    have hlink := hlinks.subset (List.mem_append_right _ hin)
    exact hapart _ (hrecorded _ hlink) _ hin rfl
  · have hin := hlinks.symm.subset hlink
    rw [hidle] at hin
    simpa using hin

section Sample

def plain : Qt where
  trimmed url := url
  regex pattern := some fun title => decide (pattern <:+: title)
  values _ links := links
  perm _ _ := .refl _

instance (s : State) : ∀ a, Decidable (Careful plain s a)
  | .checked feedUrl (.data (some (_, items))) =>
      inferInstanceAs (Decidable (∀ filter ∈ autoFilter plain s feedUrl,
        (matching filter (s.itemsOf items)).Nodup))
  | .fetched _ body => inferInstanceAs (Decidable (body.isTorrent = true))
  | .loadFeeds => inferInstanceAs (Decidable (s.downloadedLinks.length ≤ 5000))
  | .restarted =>
      inferInstanceAs (Decidable (s.downloadedLinks.length ≤ 5000 ∧ s.fetching = []))
  | .addFeed _ | .removeFeed _ | .updateFeed _ _ | .checked _ .error | .checked _ (.data none) =>
      .isTrue trivial

-- A feed that is downloaded from where the title says 720.
def feedAdded : List Event :=
  [.addFeed ['f'], .updateFeed 0 ⟨['f'], ['f'], [], "720".toList, true⟩]

def published (items : List (String × String)) : Event :=
  .checked ['f'] (.data (some ([], items.map fun item => (item.1.toList, item.2.toList))))

def Handed (links : List String) (run : State × List Out) : Prop :=
  handedLinks run.2 = links.map String.toList ∧ run.1.fetching = []

instance (links : List String) : DecidablePred (Handed links) :=
  fun _ => inferInstanceAs (Decidable (_ ∧ _))

theorem run_once_series : ∃ past s, (machine plain []).Run (Careful plain) past s ∧
    Handed ["http:b", "magnet:a"] (s, Machine.log past) ∧
    (∀ link, (handedLinks (Machine.log past)).count link ≤ 1) ∧
    ((∀ link ∈ s.downloadedLinks, link ∈ handedLinks (Machine.log past)) ↔ s.fetching = []) := by
  obtain ⟨past, s, hrun, hhanded⟩ : ∃ past s, (machine plain []).Run (Careful plain) past s ∧
      Handed ["http:b", "magnet:a"] (s, Machine.log past) :=
    Machine.exists_run_log (feedAdded ++
      [published [("a 720", "magnet:a"), ("b 720", "http:b"), ("c", "magnet:c")],
        .fetched 0 ⟨false, [100], true⟩, .restarted,
        published [("d", "magnet:d"), ("a 720", "magnet:a"), ("b 720", "http:b")]])
      (by decide +kernel)
  exact ⟨past, s, hrun, hhanded, run_once hrun⟩

def TwiceAndNever (run : State × List Out) : Prop :=
  (handedLinks run.2).count "magnet:a".toList = 2 ∧
    "http:b".toList ∈ run.1.downloadedLinks ∧ "http:b".toList ∉ handedLinks run.2

instance : DecidablePred TwiceAndNever := fun _ => inferInstanceAs (Decidable (_ ∧ _ ∧ _))

-- A reply that has a link twice, and a .torrent that does not come.
theorem run_not_once : ∃ past s, (machine plain []).Run (fun _ _ => True) past s ∧
    ¬ (∀ link, (handedLinks (Machine.log past)).count link ≤ 1) ∧
    ¬ ∀ link ∈ s.downloadedLinks, link ∈ handedLinks (Machine.log past) := by
  obtain ⟨past, s, hrun, htwice, hrecorded, hnever⟩ : ∃ past s,
      (machine plain []).Run (fun _ _ => True) past s ∧ TwiceAndNever (s, Machine.log past) :=
    Machine.exists_run_log (feedAdded ++
      [published [("a 720", "magnet:a"), ("b 720", "http:b"), ("a 720p", "magnet:a")],
        .fetched 0 ⟨true, [], true⟩])
      (by decide +kernel)
  refine ⟨past, s, hrun, fun honce => ?_, fun hall => hnever (hall _ hrecorded)⟩
  have hcount := honce "magnet:a".toList
  rw [htwice] at hcount
  exact absurd hcount (by decide)

end Sample

end BATorrent.RssManager
