/-!
Media types: what kind of file a name stands for.
-/
namespace StyleAudit

/-- The media type of each file name extension. -/
def mediaTypes : List (String × String) :=
  [("bmp", "image/bmp"), ("css", "text/css"), ("csv", "text/csv"), ("eot", "application/vnd.ms-fontobject"),
    ("gif", "image/gif"), ("gz", "application/gzip"), ("htm", "text/html"), ("html", "text/html"),
    ("ico", "image/vnd.microsoft.icon"), ("ini", "text/plain"), ("jpeg", "image/jpeg"), ("jpg", "image/jpeg"),
    ("js", "application/javascript"), ("json", "application/json"), ("jsx", "application/javascript"),
    ("less", "text/x-less"), ("map", "application/json"), ("md", "text/markdown"),
    ("mjs", "application/javascript"), ("mp3", "audio/mpeg"), ("mp4", "video/mp4"), ("ogg", "audio/ogg"),
    ("otf", "font/otf"), ("pdf", "application/pdf"), ("php", "application/x-httpd-php"),
    ("phtml", "application/x-httpd-php"), ("png", "image/png"), ("sass", "text/x-sass"),
    ("scss", "text/x-scss"), ("sh", "application/x-sh"), ("svg", "image/svg+xml"), ("tpl", "text/plain"),
    ("ts", "application/typescript"), ("tsx", "application/typescript"), ("ttf", "font/ttf"),
    ("twig", "text/x-twig"), ("txt", "text/plain"), ("wav", "audio/wav"), ("webm", "video/webm"),
    ("webp", "image/webp"), ("woff", "font/woff"), ("woff2", "font/woff2"), ("xhtml", "application/xhtml+xml"),
    ("xml", "application/xml"), ("yaml", "application/x-yaml"), ("yml", "application/x-yaml"),
    ("zip", "application/zip")]

def styleSheetType : String := "text/css"

/-- The text behind the last full stop. -/
def extension? (filename : String) : Option String :=
  match filename.toList.reverse.dropWhile (· ≠ '.') with
  | [] => none
  | _ :: _ => some (String.ofList (filename.toList.reverse.takeWhile (· ≠ '.')).reverse)

/-- The media type of a file, by the extension of its name, letter case left aside. A file without a known extension is
plain text. -/
def mediaType (filename : String) : String :=
  match extension? filename with
  | none => "text/plain"
  | some ext => ((mediaTypes.find? (·.1 = ext.toLower)).map Prod.snd).getD "text/plain"

end StyleAudit
