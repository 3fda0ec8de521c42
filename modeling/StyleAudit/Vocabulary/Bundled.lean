import StyleAudit.Vocabulary.Basic
/-!
The vocabulary that is used when none is given.
-/
namespace StyleAudit

def poshElements : List String :=
  ["a", "abbr", "address", "area", "article", "aside", "audio", "b", "base", "bdi", "bdo", "blockquote",
    "body", "br", "button", "canvas", "caption", "cite", "code", "col", "colgroup", "data", "datalist", "dd",
    "del", "details", "dfn", "dialog", "div", "dl", "dt", "em", "embed", "fieldset", "figcaption", "figure",
    "footer", "form", "h1", "h2", "h3", "h4", "h5", "h6", "head", "header", "hgroup", "hr", "html", "i",
    "iframe", "img", "input", "ins", "kbd", "label", "legend", "li", "link", "main", "map", "mark", "math",
    "menu", "meta", "meter", "nav", "noscript", "object", "ol", "optgroup", "option", "output", "p", "param",
    "picture", "pre", "progress", "q", "rp", "rt", "ruby", "s", "samp", "script", "search", "section", "select",
    "slot", "small", "source", "span", "strong", "style", "sub", "summary", "sup", "svg", "table", "tbody",
    "td", "template", "textarea", "tfoot", "th", "thead", "time", "title", "tr", "track", "u", "ul", "var",
    "video", "wbr"]

def microformatNames : List String :=
  ["adr", "additional-name", "affiliation", "author", "bday", "best", "bookmark", "brand", "category",
    "contact", "count", "country-name", "description", "dtend", "dtreviewed", "dtstart", "duration",
    "education", "email", "entry-content", "entry-summary", "entry-title", "experience", "extended-address",
    "family-name", "fn", "geo", "given-name", "hatom", "hcalendar", "hcard", "hentry", "hfeed",
    "honorific-prefix", "honorific-suffix", "hproduct", "hrecipe", "hresume", "hreview", "hreview-aggregate",
    "ingredient", "instructions", "item", "latitude", "locality", "location", "logo", "longitude", "n",
    "nickname", "note", "nutrition", "org", "organization-name", "organization-unit", "photo",
    "post-office-box", "postal-code", "price", "published", "rating", "region", "reviewer", "role", "skill",
    "street-address", "summary", "tel", "title", "tz", "uid", "updated", "url", "vcalendar", "vcard", "vevent",
    "votes", "worst", "yield"]

def microformat2Names : List String :=
  ["h-adr", "h-card", "h-cite", "h-entry", "h-event", "h-feed", "h-geo", "h-item", "h-listing", "h-product",
    "h-recipe", "h-resume", "h-review", "h-review-aggregate", "p-additional-name", "p-adr", "p-affiliation",
    "p-altitude", "p-attendee", "p-author", "p-best", "p-brand", "p-category", "p-contact", "p-content",
    "p-count", "p-country-name", "p-description", "p-duration", "p-education", "p-experience",
    "p-extended-address", "p-family-name", "p-gender-identity", "p-geo", "p-given-name", "p-honorific-prefix",
    "p-honorific-suffix", "p-identifier", "p-ingredient", "p-item", "p-job-title", "p-label", "p-latitude",
    "p-locality", "p-location", "p-longitude", "p-name", "p-nickname", "p-note", "p-nutrition", "p-org",
    "p-organization-name", "p-organization-unit", "p-post-office-box", "p-postal-code", "p-price",
    "p-publication", "p-rating", "p-region", "p-reviewer", "p-role", "p-rsvp", "p-sex", "p-skill",
    "p-sort-string", "p-street-address", "p-summary", "p-tel", "p-votes", "p-worst", "p-yield", "u-accessed",
    "u-email", "u-impp", "u-in-reply-to", "u-key", "u-like-of", "u-logo", "u-photo", "u-repost-of",
    "u-syndication", "u-uid", "u-url", "u-video", "e-content", "e-instructions", "dt-accessed",
    "dt-anniversary", "dt-bday", "dt-duration", "dt-end", "dt-published", "dt-start", "dt-updated"]

def Vocabulary.bundled : Vocabulary := ⟨poshElements, microformatNames, microformat2Names⟩

end StyleAudit
