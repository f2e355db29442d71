/-! The files that come with the program: a script of helper functions, which is run before
the first query, a family to try queries on, and a kinship dictionary. -/
namespace KinQuery.Resource

/-- The script of helper functions. -/
def helperScript : String :=
"; Helper functions defined at startup.

; numerals
(define inc (lambda (n) (+ n 1)))
(define dec (lambda (n) (- n 1)))
(define square (lambda (n) (* n n)))
(define double (lambda (n) (* n 2)))
(define even? (lambda (n) (= (mod n 2) 0)))
(define odd? (lambda (n) (not (even? n))))

; the list 0, 1, ..., n
(define first-n (lambda (n)
  (if (< n 0)
      vacant
      (append (first-n (- n 1)) n))))

; functions
(define id (lambda (x) x))
(define twice (lambda (f x) (f (f x))))
(define compose (lambda (f g) (lambda (x) (f (g x)))))
(define apply (lambda (f x) (f x)))

(define implies (lambda (p q) (or (not p) q)))
"

/-- The sample family, as the text of a document. -/
def family : String :=
"\x7b
  \"people\": [
    \x7b \"id\": 1, \"first_name\": \"Валентин\", \"last_name\": \"Грязнов\", \"sex\": \"male\", \"birth\": \"1941-03-12\", \"occupation\": \"engineer\" \x7d,
    \x7b \"id\": 2, \"first_name\": \"Нина\", \"last_name\": \"Грязнова\", \"sex\": \"female\", \"birth\": \"1944-07-02\", \"occupation\": \"teacher\" \x7d,
    \x7b \"id\": 3, \"first_name\": \"Светлана\", \"last_name\": \"Грязнова\", \"sex\": \"female\", \"birth\": \"1968-01-25\", \"occupation\": \"doctor\", \"email\": \"svetlana@example.org\" \x7d,
    \x7b \"id\": 4, \"first_name\": \"Сергей\", \"last_name\": \"Грязнов\", \"sex\": \"male\", \"birth\": \"1966-09-14\", \"phone\": \"+7 900 000-00-01\" \x7d,
    \x7b \"id\": 5, \"first_name\": \"Андрей\", \"last_name\": \"Грязнов\", \"sex\": \"male\", \"birth\": \"1970-05-30\" \x7d,
    \x7b \"id\": 6, \"first_name\": \"Евгений\", \"last_name\": \"Грязнов\", \"sex\": \"male\", \"birth\": \"1995-11-30\", \"occupation\": \"student\" \x7d,
    \x7b \"id\": 7, \"first_name\": \"Мария\", \"last_name\": \"Грязнова\", \"sex\": \"female\", \"birth\": \"1998-04-08\" \x7d,
    \x7b \"id\": 8, \"first_name\": \"Павел\", \"last_name\": \"Грязнов\", \"sex\": \"male\", \"birth\": \"2001-12-19\" \x7d
  ],
  \"bonds\": [
    \x7b \"kind\": \"marital\", \"first\": 1, \"second\": 2, \"wedding\": \"1965-06-20\" \x7d,
    \x7b \"kind\": \"marital\", \"first\": 4, \"second\": 3, \"wedding\": \"1993-08-07\" \x7d,
    \x7b \"kind\": \"parental\", \"parent\": 1, \"child\": 3 \x7d,
    \x7b \"kind\": \"parental\", \"parent\": 2, \"child\": 3 \x7d,
    \x7b \"kind\": \"parental\", \"parent\": 1, \"child\": 5 \x7d,
    \x7b \"kind\": \"parental\", \"parent\": 2, \"child\": 5 \x7d,
    \x7b \"kind\": \"parental\", \"parent\": 3, \"child\": 6 \x7d,
    \x7b \"kind\": \"parental\", \"parent\": 4, \"child\": 6 \x7d,
    \x7b \"kind\": \"parental\", \"parent\": 3, \"child\": 7 \x7d,
    \x7b \"kind\": \"parental\", \"parent\": 4, \"child\": 7 \x7d,
    \x7b \"kind\": \"parental\", \"parent\": 5, \"child\": 8 \x7d
  ]
\x7d
"

/-- The keys and names of the dictionary that comes with the program, sorted by key. -/
def kinshipEntries : List (String × String) :=
  [
    ("child,daughter", "granddaughter"),
    ("child,son", "grandson"),
    ("daughter,husband", "son-in-law"),
    ("father,father", "paternal-grandfather"),
    ("father,mother", "paternal-grandmother"),
    ("mother,father", "maternal-grandfather"),
    ("mother,mother", "maternal-grandmother"),
    ("parent,child,daughter", "niece"),
    ("parent,child,son", "nephew"),
    ("parent,daughter", "sister"),
    ("parent,parent,child,daughter", "cousin"),
    ("parent,parent,child,son", "cousin"),
    ("parent,parent,daughter", "aunt"),
    ("parent,parent,father", "great-grandfather"),
    ("parent,parent,mother", "great-grandmother"),
    ("parent,parent,son", "uncle"),
    ("parent,son", "brother"),
    ("son,wife", "daughter-in-law"),
    ("spouse,father", "father-in-law"),
    ("spouse,mother", "mother-in-law")]

end KinQuery.Resource
