import Mathlib.Tactic.Common

/-! Reading a table page by page: each request names the offset of the first row that is wanted, the
answer is a page of at most `size` rows, and a page that is not full is the last one. -/

namespace Paging

variable {Page Error : Type}

/-- `rows` counts the rows of a page or says why it is refused; no offset beyond `limit` is asked
for. -/
structure Rules (Page Error : Type) where
  size : Nat
  limit : Nat
  rows : Page → Except Error Nat
  tooMany : Nat → Error
  overflow : Error

/-- The offsets that were asked for, the pages that were handed out, and how it ended. -/
structure Trace (Page Error : Type) where
  requests : List Nat
  pages : List Page
  ended : Option (Except Error Unit)
  deriving DecidableEq

def Trace.stop (ended : Option (Except Error Unit)) : Trace Page Error := ⟨[], [], ended⟩

/-- The request for an answer that is the end of it. -/
def Trace.last (offset : Nat) (ended : Except Error Unit) : Trace Page Error := ⟨[offset], [], some ended⟩

/-- One more round in front. -/
def Trace.cons (offset : Nat) (page : Page) (trace : Trace Page Error) : Trace Page Error :=
  ⟨offset :: trace.requests, page :: trace.pages, trace.ended⟩

variable (rules : Rules Page Error)

/-- As many rounds as somebody asks for a page. A page is handed out before it is known that it is
the last one. -/
def run (server : Nat → Except Error Page) : Nat → Nat → Trace Page Error
  | 0, _ => .stop none
  | pulls + 1, offset =>
    if rules.limit < offset then .stop (some (.error rules.overflow))
    else
      match server offset with
      | .error error => .last offset (.error error)
      | .ok page =>
        match rules.rows page with
        | .error error => .last offset (.error error)
        | .ok rows =>
          if rules.size < rows then .last offset (.error (rules.tooMany rows))
          else if rows = 0 then .last offset (.ok ())
          else if rows < rules.size then .cons offset page (.stop (if pulls = 0 then none else some (.ok ())))
          else .cons offset page (run server pulls (offset + rows))

/-- A page is handed out as the server gave it, with some rows and no more than were asked for. -/
structure Handed (server : Nat → Except Error Page) (offset : Nat) (page : Page) : Prop where
  answered : server offset = .ok page
  rows : ∃ rows, rules.rows page = .ok rows ∧ 0 < rows ∧ rows ≤ rules.size

/-- A page with all rows that were asked for. -/
def Full (page : Page) : Prop := rules.rows page = .ok rules.size

/-- **One round.** Either it is the last one, or the page is full and the next request is for the
row behind it. -/
theorem run_succ_cases (server : Nat → Except Error Page) (pulls offset : Nat) :
    (∃ ended, run rules server (pulls + 1) offset = .stop (some ended) ∧ rules.limit < offset) ∨
    (offset ≤ rules.limit ∧ ∃ ended, run rules server (pulls + 1) offset = .last offset ended) ∨
    (offset ≤ rules.limit ∧ ∃ page, Handed rules server offset page ∧ ¬ Full rules page ∧
      run rules server (pulls + 1) offset =
        .cons offset page (.stop (if pulls = 0 then none else some (.ok ())))) ∨
    (offset ≤ rules.limit ∧ ∃ page, Handed rules server offset page ∧ Full rules page ∧
      run rules server (pulls + 1) offset = .cons offset page (run rules server pulls (offset + rules.size))) := by
  rw [run]
  by_cases hlimit : rules.limit < offset
  · exact .inl ⟨_, if_pos hlimit, hlimit⟩
  rw [if_neg hlimit]
  have hle : offset ≤ rules.limit := by omega
  cases hserver : server offset with
  | error error => exact .inr (.inl ⟨hle, _, rfl⟩)
  | ok page =>
    cases hrows : rules.rows page with
    | error error =>
      refine .inr (.inl ⟨hle, .error error, ?_⟩)
      simp only [hrows]
    | ok rows =>
      simp only [hrows]
      by_cases hmany : rules.size < rows
      · exact .inr (.inl ⟨hle, _, if_pos hmany⟩)
      rw [if_neg hmany]
      by_cases hzero : rows = 0
      · exact .inr (.inl ⟨hle, _, if_pos hzero⟩)
      rw [if_neg hzero]
      have hhanded : Handed rules server offset page := ⟨hserver, rows, hrows, by omega, by omega⟩
      by_cases hshort : rows < rules.size
      · refine .inr (.inr (.inl ⟨hle, page, hhanded, ?_, if_pos hshort⟩))
        intro hfull
        rw [Full, hrows, Except.ok.injEq] at hfull
        omega
      · obtain rfl : rows = rules.size := by omega
        exact .inr (.inr (.inr ⟨hle, page, hhanded, hrows, if_neg hshort⟩))

/-- What holds of `pulls` rounds from `offset` on, whatever the server answers. -/
structure Orderly (server : Nat → Except Error Page) (pulls offset : Nat) (trace : Trace Page Error) : Prop where
  requests : trace.requests = (List.range trace.requests.length).map fun k => offset + k * rules.size
  limited : ∀ request ∈ trace.requests, request ≤ rules.limit
  answered : trace.pages.length ≤ trace.requests.length ∧ trace.requests.length ≤ trace.pages.length + 1
  handed : ∀ (k : Nat) page, trace.pages[k]? = some page → Handed rules server (offset + k * rules.size) page
  full : ∀ (k : Nat) page, trace.pages[k]? = some page → k + 1 < trace.requests.length → Full rules page
  waiting : trace.ended = none → trace.pages.length = pulls

section

variable {rules} {server : Nat → Except Error Page} {pulls offset : Nat} {trace : Trace Page Error} {page : Page}

theorem Orderly.stop (ended : Option (Except Error Unit)) (h : ended = none → pulls = 0) :
    Orderly rules server pulls offset (.stop ended) := by
  refine ⟨rfl, ?_, ⟨Nat.zero_le _, Nat.zero_le _⟩, ?_, ?_, ?_⟩
  · intro request hmem
    cases hmem
  · intro k page hpage
    simp [Trace.stop] at hpage
  · intro k page hpage
    simp [Trace.stop] at hpage
  · intro hended
    rw [h hended]
    rfl

theorem Orderly.last (ended : Except Error Unit) (hlimit : offset ≤ rules.limit) :
    Orderly rules server pulls offset (.last offset ended) := by
  refine ⟨?_, ?_, ⟨Nat.zero_le _, Nat.le_refl _⟩, ?_, ?_, ?_⟩
  · simp [Trace.last]
  · intro request hmem
    obtain rfl : request = offset := by simpa [Trace.last] using hmem
    exact hlimit
  · intro k page hpage
    simp [Trace.last] at hpage
  · intro k page hpage
    simp [Trace.last] at hpage
  · intro hended
    cases hended

/-- A round in front of rounds that follow a full page. -/
theorem Orderly.cons (hlimit : offset ≤ rules.limit) (hpage : Handed rules server offset page)
    (hfull : trace.requests ≠ [] → Full rules page)
    (h : Orderly rules server pulls (offset + rules.size) trace) :
    Orderly rules server (pulls + 1) offset (.cons offset page trace) := by
  have hshift : ∀ k : Nat, offset + rules.size + k * rules.size = offset + (k + 1) * rules.size := by
    intro k
    rw [Nat.add_mul, Nat.one_mul, Nat.add_assoc, Nat.add_comm rules.size]
  refine ⟨?_, ?_, ?_, ?_, ?_, ?_⟩
  · have htail : trace.requests =
        (List.range trace.requests.length).map fun k => offset + (k + 1) * rules.size := by
      simpa only [hshift] using h.requests
    show offset :: trace.requests = (List.range (trace.requests.length + 1)).map _
    rw [List.range_succ_eq_map, List.map_cons, List.map_map, Nat.zero_mul, Nat.add_zero]
    exact congrArg _ htail
  · intro request hmem
    cases hmem with
    | head => exact hlimit
    | tail _ hmem => exact h.limited request hmem
  · have := h.answered
    simp only [Trace.cons, List.length_cons]
    omega
  · intro k found hfound
    cases k with
    | zero =>
      obtain rfl : page = found := by simpa [Trace.cons] using hfound
      simpa using hpage
    | succ k =>
      rw [← hshift]
      exact h.handed k found (by simpa [Trace.cons] using hfound)
  · intro k found hfound hlt
    simp only [Trace.cons, List.length_cons] at hlt
    cases k with
    | zero =>
      obtain rfl : page = found := by simpa [Trace.cons] using hfound
      apply hfull
      exact List.ne_nil_of_length_pos (by omega)
    | succ k => exact h.full k found (by simpa [Trace.cons] using hfound) (by omega)
  · intro hended
    exact congrArg (· + 1) (h.waiting hended)

end

/-- **Every run is orderly**, by induction over the rounds. -/
theorem run_orderly (server : Nat → Except Error Page) (pulls offset : Nat) :
    Orderly rules server pulls offset (run rules server pulls offset) := by
  induction pulls generalizing offset with
  | zero => exact .stop none fun _ => rfl
  | succ pulls ih =>
    obtain ⟨ended, hrun, -⟩ | ⟨hlimit, ended, hrun⟩ | ⟨hlimit, page, hpage, -, hrun⟩ |
      ⟨hlimit, page, hpage, hfull, hrun⟩ := run_succ_cases rules server pulls offset
    · rw [hrun]
      exact .stop _ fun hnone => nomatch hnone
    · rw [hrun]
      exact .last ended hlimit
    · rw [hrun]
      apply Orderly.cons hlimit hpage (fun hmore => absurd rfl hmore)
      apply Orderly.stop
      intro hnone
      by_contra hpulls
      simp [hpulls] at hnone
    · rw [hrun]
      exact .cons hlimit hpage (fun _ => hfull) (ih (offset + rules.size))

/-! ## Pagers that fail in other words -/

section

variable {Error' : Type}

/-- The same requests and pages, and both go on, both are done or both have failed. -/
structure Alike (trace : Trace Page Error) (trace' : Trace Page Error') : Prop where
  requests : trace.requests = trace'.requests
  pages : trace.pages = trace'.pages
  ended : trace.ended.map Except.toOption = trace'.ended.map Except.toOption

theorem Alike.cons {trace : Trace Page Error} {trace' : Trace Page Error'} (offset : Nat) (page : Page)
    (h : Alike trace trace') : Alike (.cons offset page trace) (.cons offset page trace') := by
  refine ⟨?_, ?_, h.ended⟩
  · exact congrArg (offset :: ·) h.requests
  · exact congrArg (page :: ·) h.pages

/-- Pagers with the same numbers that refuse the same answers run alike. -/
theorem run_alike {rules : Rules Page Error} {rules' : Rules Page Error'} (hsize : rules.size = rules'.size)
    (hlimit : rules.limit = rules'.limit) (hrows : ∀ page, (rules.rows page).toOption = (rules'.rows page).toOption)
    {server : Nat → Except Error Page} {server' : Nat → Except Error' Page}
    (hserver : ∀ offset, (server offset).toOption = (server' offset).toOption) (pulls offset : Nat) :
    Alike (run rules server pulls offset) (run rules' server' pulls offset) := by
  induction pulls generalizing offset with
  | zero => exact ⟨rfl, rfl, rfl⟩
  | succ pulls ih =>
    rw [run, run, hsize, hlimit]
    by_cases hbeyond : rules'.limit < offset
    · simp only [hbeyond, if_true]
      exact ⟨rfl, rfl, rfl⟩
    simp only [hbeyond, if_false]
    have hanswer := hserver offset
    cases hfirst : server offset with
    | error error =>
      cases hsecond : server' offset with
      | error error' => exact ⟨rfl, rfl, rfl⟩
      | ok page => simp [hfirst, hsecond, Except.toOption] at hanswer
    | ok page =>
      cases hsecond : server' offset with
      | error error' => simp [hfirst, hsecond, Except.toOption] at hanswer
      | ok page' =>
        obtain rfl : page = page' := by simpa [hfirst, hsecond, Except.toOption] using hanswer
        have hcount := hrows page
        cases hleft : rules.rows page with
        | error error =>
          cases hright : rules'.rows page with
          | error error' => simp only [hleft, hright]; exact ⟨rfl, rfl, rfl⟩
          | ok rows => simp [hleft, hright, Except.toOption] at hcount
        | ok rows =>
          cases hright : rules'.rows page with
          | error error' => simp [hleft, hright, Except.toOption] at hcount
          | ok rows' =>
            obtain rfl : rows = rows' := by simpa [hleft, hright, Except.toOption] using hcount
            simp only [hleft, hright]
            split
            · exact ⟨rfl, rfl, rfl⟩
            split
            · exact ⟨rfl, rfl, rfl⟩
            split
            · apply Alike.cons
              by_cases hpulls : pulls = 0
              · simp only [hpulls, if_true]
                exact ⟨rfl, rfl, rfl⟩
              · simp only [hpulls, if_false]
                exact ⟨rfl, rfl, rfl⟩
            · exact (ih (offset + rows)).cons offset page

end

/-! ## A table that does not change -/

variable {Row : Type} (content : Page → List Row)

/-- The server answers from `table`. -/
def Serves (server : Nat → Except Error Page) (table : List Row) : Prop :=
  ∀ offset ≤ table.length, ∃ page, server offset = .ok page ∧ rules.rows page = .ok (content page).length ∧
    content page = (table.drop offset).take rules.size

/-- The pages are the rest of the table, and the first page that is not full ends it. -/
theorem run_table {server : Nat → Except Error Page} {table : List Row} (hsize : 0 < rules.size)
    (hlimit : table.length ≤ rules.limit) (hserves : Serves rules content server table) (pulls offset : Nat)
    (hoffset : offset ≤ table.length) (hpulls : (table.length - offset) / rules.size + 1 < pulls) :
    (run rules server pulls offset).ended = some (.ok ()) ∧
      (run rules server pulls offset).pages.flatMap content = table.drop offset ∧
      (run rules server pulls offset).requests.length = (table.length - offset) / rules.size + 1 := by
  induction pulls generalizing offset with
  | zero => exact absurd hpulls (Nat.not_lt_zero _)
  | succ pulls ih =>
    obtain ⟨page, hserver, hrows, hcontent⟩ := hserves offset hoffset
    have hlength : (content page).length = min rules.size (table.length - offset) := by
      rw [hcontent, List.length_take, List.length_drop]
    rw [run, if_neg (by omega)]
    simp only [hserver, hrows, hlength]
    rw [if_neg (by omega)]
    by_cases hend : table.length - offset = 0
    · rw [if_pos (by omega)]
      refine ⟨rfl, ?_, ?_⟩
      · simp [Trace.last, List.drop_eq_nil_of_le (show table.length ≤ offset by omega)]
      · simp [Trace.last, hend]
    rw [if_neg (by omega)]
    by_cases hshort : table.length - offset < rules.size
    · rw [if_pos (by omega)]
      have hmore : pulls ≠ 0 := Nat.ne_zero_of_lt (Nat.lt_of_succ_lt_succ hpulls)
      refine ⟨if_neg hmore, ?_, ?_⟩
      · simp only [Trace.cons, Trace.stop, List.flatMap_cons, List.flatMap_nil, List.append_nil, hcontent]
        exact List.take_of_length_le (by rw [List.length_drop]; omega)
      · simp [Trace.cons, Trace.stop, Nat.div_eq_of_lt hshort]
    · have hmin : min rules.size (table.length - offset) = rules.size := Nat.min_eq_left (by omega)
      rw [if_neg (by omega), hmin]
      have hrest : (table.length - offset) / rules.size = (table.length - (offset + rules.size)) / rules.size + 1 := by
        rw [← Nat.sub_sub, ← Nat.div_eq_sub_div hsize (by omega)]
      obtain ⟨hended, hpages, hrequests⟩ := ih (offset + rules.size) (by omega) (by omega)
      refine ⟨hended, ?_, ?_⟩
      · simp only [Trace.cons, List.flatMap_cons, hpages, hcontent]
        rw [← List.drop_drop]
        exact List.take_append_drop _ _
      · simp only [Trace.cons, List.length_cons, hrequests, hrest]

end Paging
